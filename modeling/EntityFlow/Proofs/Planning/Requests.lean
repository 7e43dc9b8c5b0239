import EntityFlow.Proofs.Generation.Handles

/-!
# Requests while a plan is made

Events, nodes that work on entities and jobs ask for handles while a plan is made, each at its own
time.  `planWith ask` is planning with requests answered by `ask`, and planning itself answers by
`rootHandle`.  The plan stays the same under any `ask` that answers as `rootHandle` does whenever
that gives the name that the handle has in the finished plan: a request is never answered with
another name.
-/

namespace EntityFlow.Planning

open Naming

variable {α β : Type} {g : Graph} {q : Plan} {ask : Handle → Planning String}

/-- Requests for a handle that `q` declares, if they are answered with its name there, are answered
by `ask` in the same way.  What `ask` does on all others is left open. -/
def Answers (g : Graph) (q : Plan) (ask : Handle → Planning String) : Prop :=
  ∀ h ∈ q.handles, ∀ p name r, (rootHandle g h).run p = .ok (name, r) → name = q.handleName h →
    (ask h).run p = .ok (name, r)

/-- Where `m` succeeds, `m'` does the same, as far as handles keep until `q` the names they have
then. -/
def Agrees (q : Plan) (m m' : Planning α) : Prop :=
  ∀ p a r, m.run p = .ok (a, r) → KeepsHandles p r ∧ (KeepsHandles r q → m'.run p = .ok (a, r))

/-- A run that asks for no handle agrees with itself. -/
theorem agrees_refl {m : Planning α} (h : Moves KeepsHandles m) : Agrees q m m :=
  fun p a r hrun => ⟨h p a r hrun, fun _ => hrun⟩

/-- Runs that agree part after part agree as a whole. -/
theorem agrees_bind {m m' : Planning α} {f f' : α → Planning β} (hm : Agrees q m m')
    (hf : ∀ a, Agrees q (f a) (f' a)) : Agrees q (m >>= f) (m' >>= f') := by
  intro p b r hrun
  rw [StateT.run_bind, bind_eq_ok] at hrun
  obtain ⟨⟨a, p'⟩, hfirst, hrest⟩ := hrun
  obtain ⟨hkeeps, hsame⟩ := hm p a p' hfirst
  obtain ⟨hkeeps', hsame'⟩ := hf a p' b r hrest
  refine ⟨hkeeps.trans hkeeps', fun hq => ?_⟩
  rw [run_bind_of_ok (hsame (hkeeps'.trans hq))]
  exact hsame' hq

theorem agrees_get {f f' : Plan → Planning β} (hf : ∀ p, Agrees q (f p) (f' p)) :
    Agrees q (get >>= f) (get >>= f') :=
  agrees_bind (agrees_refl fun p => ensures_get.2 (.refl p)) hf

theorem agrees_forM {f f' : α → Planning PUnit} {xs : List α} (h : ∀ x, Agrees q (f x) (f' x)) :
    Agrees q (xs.forM f) (xs.forM f') := by
  induction xs with
  | nil => exact agrees_refl fun p => ensures_pure.2 (.refl p)
  | cons x xs ih => exact agrees_bind (h x) fun _ => ih

/-- The name that a request is answered with is declared from then on. -/
theorem Answers.agrees (hask : Answers g q ask) (h : Handle) :
    Agrees q (rootHandle g h) (ask h) := by
  intro p name r hrun
  refine ⟨(lasting_keepsHandles g).moves_rootHandle h p name r hrun, fun hq => ?_⟩
  have hdeclared : Declares q h name := hq h name (ensures_rootHandle name r hrun)
  exact hask h hdeclared.1 p name r hrun hdeclared.name_eq

variable (hask : Answers g q ask)

include hask

theorem agrees_nameEvent (n : NodeId) (e : Lifecycle) :
    Agrees q (nameEvent (rootHandle g) g n e) (nameEvent ask g n e) := by
  have hlasting := lasting_keepsHandles g
  refine agrees_bind (agrees_refl (hlasting.moves_ofGraph _)) fun state => ?_
  refine agrees_bind (agrees_refl (hlasting.moves_bindOutput _ (.ident _))) fun _ => ?_
  split
  · refine agrees_bind (agrees_refl (hlasting.moves_nameTime n _ _)) fun _ => ?_
    refine agrees_bind (agrees_refl (hlasting.moves_nameTime n _ _)) fun _ => ?_
    refine agrees_bind (agrees_refl (hlasting.moves_ofGraph _)) fun manager => ?_
    split
    · refine agrees_bind (hask.agrees _) fun name => agrees_refl fun p => ?_
      exact ensures_modify.2 (.refl p)
    · exact agrees_refl (hlasting.moves_pure _)
  · exact agrees_refl (hlasting.moves_pure _)

theorem agrees_nameEntityNode (n : NodeId) (h : Handle) :
    Agrees q (nameEntityNode (rootHandle g) g n h) (nameEntityNode ask g n h) := by
  have hlasting := lasting_keepsHandles g
  refine agrees_get fun p => ?_
  split
  · exact agrees_bind (hask.agrees h) fun _ => agrees_refl (hlasting.moves_pure _)
  · exact agrees_refl (hlasting.moves_pure _)

/-- Naming a node asks for no more than it is answered. -/
theorem agrees_nameNode (n : NodeId) :
    Agrees q (nameNode (rootHandle g) g n) (nameNode ask g n) := by
  have hlasting := lasting_keepsHandles g
  refine agrees_bind (agrees_refl (hlasting.moves_ofGraph _)) fun node => ?_
  obtain ⟨title, kind, container, ports⟩ := node
  cases kind with
  | event e => exact agrees_nameEvent hask n e
  | functionEntry f => exact agrees_refl (hlasting.moves_nameEntry n f)
  | localVar name type =>
    refine agrees_refl (hlasting.moves_bind (hlasting.moves_ofGraph _) fun output => ?_)
    exact hlasting.moves_nameOutput _ _
  | «foreach» spec => exact agrees_refl (hlasting.moves_nameForeach n _ spec)
  | jobEntity spec => exact agrees_refl (hlasting.moves_nameOutputs n _)
  | jobChunk spec => exact agrees_refl (hlasting.moves_nameOutputs n _)
  | executor runWith job => exact agrees_refl (hlasting.moves_nameExecutor n runWith job)
  | createEntity =>
    refine agrees_bind (agrees_refl (hlasting.moves_ofGraph _)) fun output => ?_
    refine agrees_bind (agrees_refl (hlasting.moves_nameOutput _ _)) fun _ => ?_
    exact agrees_nameEntityNode hask n .commandBuffer
  | destroyEntity | setComponent _ | setComponentEnabled _ =>
    exact agrees_nameEntityNode hask n .commandBuffer
  | getComponent component => exact agrees_nameEntityNode hask n .entityManager
  | _ => exact agrees_refl (hlasting.moves_pure _)

theorem agrees_addCommandBuffer (j : Job) :
    Agrees q (addCommandBuffer (rootHandle g) g j) (addCommandBuffer ask g j) := by
  have hlasting := lasting_keepsHandles g
  refine agrees_bind (hask.agrees .commandBuffer) fun name => agrees_refl ?_
  dsimp only
  split
  · exact hlasting.moves_pure _
  · split
    · exact hlasting.moves_bind (hlasting.moves_register _ _) fun _ => hlasting.moves_pure _
    · exact hlasting.moves_get fun p => hlasting.moves_pure _

theorem agrees_equip (b : Boundary) (bare : Job) :
    Agrees q (equip (rootHandle g) g b bare) (equip ask g b bare) := by
  have hlasting := lasting_keepsHandles g
  refine agrees_bind (agrees_refl (hlasting.moves_foldlM fun j x => ?_)) fun j => ?_
  · exact hlasting.moves_addVariable j _ _
  refine agrees_bind (agrees_refl (hlasting.moves_foldlM fun j x => ?_)) fun j => ?_
  · exact hlasting.moves_addCrossing j _ _
  refine agrees_bind (agrees_refl (hlasting.moves_forM fun x => ?_)) fun _ => ?_
  · exact hlasting.moves_giveUp x.1 ⟨_, .inr rfl⟩
  refine agrees_get fun p => ?_
  refine agrees_bind
    (agrees_refl (hlasting.moves_foldlM fun j n => hlasting.moves_inspect b j n)) ?_
  intro j
  split
  · exact agrees_addCommandBuffer hask j
  · exact agrees_refl (hlasting.moves_pure j)

/-- Describing a job asks for no more than it is answered. -/
theorem agrees_describe (b : Boundary) :
    Agrees q (describe (rootHandle g) g b) (describe ask g b) := by
  have hlasting := lasting_keepsHandles g
  refine agrees_get fun p => agrees_bind (agrees_refl (hlasting.moves_attempt _)) fun bare => ?_
  have hadd : Agrees q
      (equip (rootHandle g) g b bare >>= fun j => modify fun p => { p with jobs := p.jobs ++ [j] })
      (equip ask g b bare >>= fun j => modify fun p => { p with jobs := p.jobs ++ [j] }) :=
    agrees_bind (agrees_equip hask b bare) fun j => agrees_refl fun p => ensures_modify.2 (.refl p)
  dsimp only
  split
  · exact agrees_bind (agrees_refl fun p => ensures_modify.2 (.refl p)) fun _ => hadd
  · exact hadd

/-- Requests are answered with the names of the finished plan. -/
theorem run_planWith (hq : Plan.make g = .ok q) :
    (planWith ask g).run (.start g) = .ok (⟨⟩, q) := by
  have hagrees : Agrees q (planAll g) (planWith ask g) := by
    have hlasting := lasting_keepsHandles g
    refine agrees_bind (agrees_refl (hlasting.moves_forM fun x => ?_)) fun _ => ?_
    · exact hlasting.moves_declareFunction x.1 x.2
    refine agrees_bind (agrees_refl (hlasting.moves_forM hlasting.moves_claim)) fun _ => ?_
    refine agrees_bind (agrees_forM (agrees_nameNode hask)) fun _ => ?_
    exact agrees_get fun p => agrees_forM (agrees_describe hask)
  rw [Plan.make] at hq
  cases hrun : (planAll g).run (.start g) with
  | error e => simp [hrun, Except.map] at hq
  | ok x =>
    obtain rfl : x.2 = q := by simpa [hrun, Except.map] using hq
    exact (hagrees _ _ _ hrun).2 (.refl _)

end EntityFlow.Planning
