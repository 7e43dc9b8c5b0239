import EntityFlow.Proofs.Boundary.Captures
import EntityFlow.Proofs.Planning.Runs
import Mathlib.Data.List.Nodup

/-!
# Jobs and the redirects to their fields

A boundary that is described adds one job to the plan, and in front of the redirects those of the
inputs it captures.  Both come from the same loop over its crossings: a crossing whose value a job
can hold becomes a field, and its inputs are redirected to the name of the field.  All other steps
of describing leave boundaries, jobs, redirects and the fields of captured outputs as they are.
-/

namespace EntityFlow

/-- The search by a key that no two entries share finds every entry. -/
theorem find?_of_nodup_map {α κ : Type} [DecidableEq κ] {key : α → κ} {xs : List α} {x : α}
    (hnodup : (xs.map key).Nodup) (hx : x ∈ xs) : xs.find? (fun y => key y = key x) = some x := by
  have hsome : (xs.find? fun y => key y = key x).isSome := List.find?_isSome.2 ⟨x, hx, by simp⟩
  obtain ⟨y, hy⟩ := Option.isSome_iff_exists.1 hsome
  have hkey : key y = key x := by simpa using List.find?_some hy
  rw [hy, List.inj_on_of_nodup_map hnodup (List.mem_of_find?_eq_some hy) hx hkey]

/-! ## Fields of captured outputs -/

namespace Job

variable {j j' : Job} {f : CaptureField} {owner : CaptureOwner}

/-- A field that was there first stays. -/
theorem field?_addField : (j.addField f).field? owner =
    (j.field? owner).or (if f.owner = owner then some f else none) := by
  unfold addField
  split
  · rename_i h
    by_cases ho : f.owner = owner
    · obtain ⟨f', hf'⟩ := Option.isSome_iff_exists.1 h
      simp [← ho, hf']
    · simp [ho]
  · simp [field?, List.find?_append, List.find?_singleton]

/-- The same job as far as captured outputs are concerned. -/
structure SameCaptures (j j' : Job) : Prop where
  node : j'.node = j.node
  field : ∀ r, j'.field? (.port r) = j.field? (.port r)

theorem SameCaptures.refl (j : Job) : j.SameCaptures j := ⟨rfl, fun _ => rfl⟩

theorem SameCaptures.trans {j'' : Job} (h : j.SameCaptures j') (h' : j'.SameCaptures j'') :
    j.SameCaptures j'' :=
  ⟨h'.node.trans h.node, fun r => (h'.field r).trans (h.field r)⟩

@[simp] theorem node_addField : (j.addField f).node = j.node := by
  unfold addField
  split <;> rfl

/-- A field that is no copy of a port leaves the copies as they are. -/
theorem sameCaptures_addField (h : ∀ r, f.owner ≠ .port r) : j.SameCaptures (j.addField f) :=
  ⟨node_addField, fun r => by simp [field?_addField, h r]⟩

end Job

/-- Nodes whose body can become a job: loops, and nodes that declare a job. -/
def NodeKind.hasJob : NodeKind → Bool
  | .foreach _ => true
  | kind => kind.isJob

def Graph.jobVariables (g : Graph) (n : NodeId) : List JobVariable :=
  ((g.kind? n).map NodeKind.jobVariables).getD []

/-- How the body of a boundary is run: a loop says so itself, and a job is run as its executors
ask. -/
def Graph.boundaryDiscipline (g : Graph) (n : NodeId) : Discipline :=
  match g.kind? n with
  | some (.foreach spec) => spec.run
  | _ => g.jobDiscipline n

namespace Planning

open Naming

variable {g : Graph} {j j' : Job} {source i : PortRef} {inputs : List PortRef}
  {cs : List (PortRef × List PortRef)} {rs : List (PortRef × NodeId × String)}

/-- Outputs whose value a job can hold. -/
def IsCapturable (g : Graph) (source : PortRef) : Prop :=
  ∃ port, g.port? source = some port ∧ isUncapturable g source port = false

/-- Some crossing leads from `source` to `i`, and a job can hold the value. -/
def Captures (g : Graph) (cs : List (PortRef × List PortRef)) (source i : PortRef) : Prop :=
  IsCapturable g source ∧ ∃ inputs, (source, inputs) ∈ cs ∧ i ∈ inputs

/-- The captured outputs of a job are those of the crossings, and `rs` redirects the inputs of the
crossings to their fields. -/
structure Redirected (g : Graph) (cs : List (PortRef × List PortRef)) (j : Job)
    (rs : List (PortRef × NodeId × String)) : Prop where
  field : ∀ source, (∃ f, j.field? (.port source) = some f) ↔
    IsCapturable g source ∧ ∃ inputs, (source, inputs) ∈ cs
  mem : ∀ i t, (i, t) ∈ rs ↔ ∃ source f, Captures g cs source i ∧
    j.field? (.port source) = some f ∧ t = (j.node, f.name)

namespace Redirected

/-- Redirects depend on the copies only. -/
theorem of_sameCaptures (h : Redirected g cs j rs) (hj : j.SameCaptures j') :
    Redirected g cs j' rs where
  field source := by
    rw [hj.field]
    exact h.field source
  mem i t := by
    simp only [hj.field, hj.node]
    exact h.mem i t

/-- A crossing whose value no job can hold changes nothing. -/
theorem concat_of_not (h : Redirected g cs j rs) (hs : ¬IsCapturable g source) :
    Redirected g (cs ++ [(source, inputs)]) j rs := by
  have hmem : ∀ s, IsCapturable g s →
      ∀ is, (s, is) ∈ cs ++ [(source, inputs)] ↔ (s, is) ∈ cs := by
    intro s hc is
    have : s ≠ source := by
      rintro rfl
      exact hs hc
    simp [this]
  refine ⟨fun s => ?_, fun i t => ?_⟩
  · rw [h.field]
    exact and_congr_right fun hc => exists_congr fun is => (hmem s hc is).symm
  · rw [h.mem]
    refine exists_congr fun s => exists_congr fun f => and_congr_left' ?_
    exact and_congr_right fun hc => exists_congr fun is => and_congr_left' (hmem s hc is).symm

/-- A crossing of a new output adds its field and redirects its inputs. -/
theorem concat {f : CaptureField} (h : Redirected g cs j rs) (hs : IsCapturable g source)
    (hnew : ∀ is, (source, is) ∉ cs) (hf : f.owner = .port source) :
    Redirected g (cs ++ [(source, inputs)]) (j.addField f)
      ((inputs.map fun i => (i, j.node, f.name)).reverse ++ rs) := by
  have hnone : j.field? (.port source) = none := by
    by_contra hne
    obtain ⟨f', hf'⟩ := Option.ne_none_iff_exists'.1 hne
    obtain ⟨-, is, his⟩ := (h.field source).1 ⟨f', hf'⟩
    exact hnew is his
  have hfield : ∀ s, (j.addField f).field? (.port s) =
      if s = source then some f else j.field? (.port s) := by
    intro s
    rw [Job.field?_addField, hf]
    by_cases hss : s = source
    · simp [hss, hnone]
    · simp [hss, Ne.symm hss]
  refine ⟨fun s => ?_, fun i t => ?_⟩
  · rw [hfield]
    by_cases hss : s = source
    · subst hss
      simp [hs]
    · simp [hss, h.field]
  · rw [List.mem_append, h.mem, List.mem_reverse, List.mem_map, Job.node_addField]
    constructor
    · rintro (⟨i, hi, heq⟩ | ⟨s, f', ⟨hc, is, his, hi⟩, hf', rfl⟩)
      · obtain ⟨rfl, rfl⟩ := Prod.mk.inj heq
        exact ⟨source, f, ⟨hs, inputs, by simp, hi⟩, by simp [hfield], rfl⟩
      · have hss : s ≠ source := by
          rintro rfl
          exact hnew is his
        exact ⟨s, f', ⟨hc, is, by simp [his], hi⟩, by simp [hfield, hss, hf'], rfl⟩
    · rintro ⟨s, f', ⟨hc, is, his, hi⟩, hf', rfl⟩
      rw [hfield] at hf'
      by_cases hss : s = source
      · subst hss
        obtain rfl : f = f' := by simpa using hf'
        obtain rfl : is = inputs := by simpa [hnew is] using his
        exact .inl ⟨i, hi, rfl⟩
      · rw [if_neg hss] at hf'
        have his : (s, is) ∈ cs := by simpa [hss] using his
        exact .inr ⟨s, f', ⟨hc, is, his, hi⟩, hf', rfl⟩

end Redirected

/-! ## Steps of describing -/

/-- Boundaries, jobs and redirects stay. -/
structure SameOutline (p q : Plan) : Prop where
  boundaries : q.boundaries = p.boundaries
  jobs : q.jobs = p.jobs
  redirects : q.redirects = p.redirects

theorem SameOutline.trans {p q r : Plan} (h : SameOutline p q) (h' : SameOutline q r) :
    SameOutline p r :=
  ⟨h'.boundaries.trans h.boundaries, h'.jobs.trans h.jobs, h'.redirects.trans h.redirects⟩

theorem SameOutline.refl (p : Plan) : SameOutline p p := ⟨rfl, rfl, rfl⟩

/-- Names, reports and bindings leave the outline of the plan as it is. -/
theorem steady_sameOutline (g : Graph) : Steady g SameOutline where
  refl := .refl
  trans := .trans
  symbols_register _ _ _ := ⟨rfl, rfl, rfl⟩
  symbols_fresh _ _ := ⟨rfl, rfl, rfl⟩
  diagnostics _ _ _ _ := ⟨rfl, rfl, rfl⟩
  bindings _ _ _ _ := ⟨rfl, rfl, rfl⟩
  handles _ _ _ _ _ := ⟨rfl, rfl, rfl⟩
  times _ _ _ := ⟨rfl, rfl, rfl⟩
  unavailable _ _ _ := ⟨rfl, rfl, rfl⟩

/-- A step that keeps the outline of the plan and the captured outputs of a job. -/
def Retains (j : Job) (m : Planning Job) : Prop :=
  ∀ p, Ensures p m fun j' q => SameOutline p q ∧ j.SameCaptures j'

section Retains

variable {α : Type}

theorem retains_pure (h : j.SameCaptures j') : Retains j (pure j') :=
  fun p => ensures_pure.2 ⟨SameOutline.refl p, h⟩

theorem retains_bind {m : Planning α} {f : α → Planning Job} (hm : Moves SameOutline m)
    (hf : ∀ a, Retains j (f a)) : Retains j (m >>= f) := by
  refine fun p => ensures_bind.2 ((hm p).mono fun a q hpq => ?_)
  exact (hf a q).mono fun j' r h => ⟨hpq.trans h.1, h.2⟩

theorem retains_get {f : Plan → Planning Job} (hf : ∀ p, Retains j (f p)) : Retains j (get >>= f) :=
  retains_bind (fun p => ensures_get.2 (SameOutline.refl p)) hf

theorem retains_foldlM {xs : List α} {step : Job → α → Planning Job}
    (h : ∀ j x, Retains j (step j x)) : Retains j (xs.foldlM step j) := by
  intro p
  refine ensures_foldlM (I := fun _ j' q => SameOutline p q ∧ j.SameCaptures j')
    ⟨SameOutline.refl p, .refl j⟩ fun _ x _ j' q _ hI => ?_
  exact (h j' x q).mono fun j'' r h' => ⟨hI.1.trans h'.1, hI.2.trans h'.2⟩

end Retains

theorem retains_addVariable (index : Nat) (v : JobVariable) :
    Retains j (addVariable g j index v) := by
  unfold addVariable
  split
  · exact retains_pure (.refl j)
  · refine retains_bind ((steady_sameOutline g).moves_register _ _) fun name => ?_
    exact retains_pure (Job.sameCaptures_addField nofun)

theorem retains_inspect (b : Boundary) (n : NodeId) : Retains j (inspect g b j n) := by
  unfold inspect
  split
  · unfold addLookup
    split
    · exact retains_pure (.refl j)
    · refine retains_bind ((steady_sameOutline g).moves_fresh _) fun name => ?_
      exact retains_pure (Job.sameCaptures_addField nofun)
  · refine retains_get fun p => ?_
    split
    · exact retains_bind ((steady_sameOutline g).moves_report _ (.writeToCapture _))
        fun _ => retains_pure (.refl j)
    · exact retains_pure (.refl j)
  · exact retains_pure (.refl j)

theorem retains_addCommandBuffer : Retains j (addCommandBuffer (rootHandle g) g j) := by
  refine retains_bind ((steady_sameOutline g).moves_rootHandle _) fun name => ?_
  split
  · exact retains_pure (Job.sameCaptures_addField nofun)
  · have hbuffer := fun type buffer => Job.sameCaptures_addField (j := j)
      (f := ⟨name, type, true, .commandBuffer, buffer⟩) nofun
    dsimp only
    split
    · refine retains_bind ((steady_sameOutline g).moves_register _ _) fun key => ?_
      exact retains_pure ⟨(hbuffer _ _).node, (hbuffer _ _).field⟩
    · exact retains_get fun p => retains_pure ⟨(hbuffer _ _).node, (hbuffer _ _).field⟩

theorem sameCaptures_addMember (t : SymbolTable) (m : MemberId) :
    j.SameCaptures (addMember g t j m) := by
  unfold addMember
  split
  · exact Job.sameCaptures_addField nofun
  · exact .refl j

theorem sameCaptures_addAutoProperty (t : SymbolTable) (m : MemberId) :
    j.SameCaptures (addAutoProperty g t j m) := by
  unfold addAutoProperty
  split
  · split
    · exact Job.sameCaptures_addField nofun
    · exact .refl j
  · exact .refl j

theorem sameCaptures_foldl {α : Type} {xs : List α} {step : Job → α → Job}
    (h : ∀ (j : Job) x, j.SameCaptures (step j x)) : j.SameCaptures (xs.foldl step j) := by
  induction xs generalizing j with
  | nil => exact .refl j
  | cons x xs ih => exact (h j x).trans ih

theorem moves_captureName (n : NodeId) (port : Port) :
    Moves SameOutline (captureName g n source port) := by
  refine (steady_sameOutline g).moves_get fun p => ?_
  split
  · exact (steady_sameOutline g).moves_pure _
  · exact (steady_sameOutline g).moves_register _ _

/-! ## Describing a boundary -/

/-- After some crossings of boundary `n`: their fields are in the job, their redirects in front. -/
structure Crossed (g : Graph) (p : Plan) (n : NodeId) (cs : List (PortRef × List PortRef)) (j : Job)
    (q : Plan) : Prop where
  node : j.node = n
  boundaries : q.boundaries = p.boundaries
  jobs : q.jobs = p.jobs
  redirects : ∃ rs, q.redirects = rs ++ p.redirects ∧ Redirected g cs j rs

variable {p q : Plan} {n : NodeId} {b : Boundary}

/-- Crossings that were made stay made. -/
theorem Crossed.of_sameOutline {r : Plan} (h : Crossed g p n cs j q) (hq : SameOutline q r)
    (hj : j.SameCaptures j') : Crossed g p n cs j' r := by
  obtain ⟨rs, hrs, hred⟩ := h.redirects
  exact ⟨hj.node.trans h.node, hq.boundaries.trans h.boundaries, hq.jobs.trans h.jobs, rs,
    hq.redirects.trans hrs, hred.of_sameCaptures hj⟩

/-- A crossing from a new source adds its field and its redirects. -/
theorem Crossed.ensures_addCrossing (h : Crossed g p n cs j q) (hnew : ∀ is, (source, is) ∉ cs) :
    Ensures q (addCrossing g j source inputs) (Crossed g p n (cs ++ [(source, inputs)])) := by
  obtain ⟨hnode, hboundaries, hjobs, rs, hrs, hred⟩ := h
  -- a crossing that no job can hold is skipped in two places
  have hskip : ∀ r, SameOutline q r → ¬IsCapturable g source →
      Crossed g p n (cs ++ [(source, inputs)]) j r := by
    intro r hqr hs
    exact ⟨hnode, hqr.boundaries.trans hboundaries, hqr.jobs.trans hjobs, rs,
      hqr.redirects.trans hrs, hred.concat_of_not hs⟩
  have hadd : ∀ name type r, SameOutline q r → IsCapturable g source →
      Crossed g p n (cs ++ [(source, inputs)])
        (j.addField ⟨name, type, false, .port source, .port source⟩)
        { r with redirects := (inputs.map fun i => (i, j.node, name)).reverse ++ r.redirects } := by
    intro name type r hqr hs
    refine ⟨Job.node_addField.trans hnode, hqr.boundaries.trans hboundaries,
      hqr.jobs.trans hjobs, _, ?_, hred.concat hs hnew rfl⟩
    simp only [hqr.redirects, hrs, List.append_assoc]
  unfold addCrossing
  split
  · rename_i hport
    refine ensures_pure.2 (hskip q (SameOutline.refl q) ?_)
    rintro ⟨port, hp, -⟩
    simp [hport] at hp
  · rename_i port hport
    split
    · rename_i hbad
      refine ensures_bind.2 (Ensures.mono ((steady_sameOutline g).moves_forM (fun input => ?_) q)
        fun _ r hqr => ensures_pure.2 (hskip r hqr ?_))
      · exact (steady_sameOutline g).moves_giveUp input ⟨_, .inl rfl⟩
      · rintro ⟨port', hp, hgood⟩
        obtain rfl : port = port' := Option.some.inj (hport.symm.trans hp)
        exact absurd hbad (by simp [hgood])
    · rename_i hgood
      have hs : IsCapturable g source := ⟨port, hport, by simpa using hgood⟩
      refine ensures_bind.2 ((moves_captureName j.node port q).mono fun name r hqr => ?_)
      dsimp only
      split
      · simp only [ensures_bind, ensures_pure, ensures_modify]
        exact hadd name _ r hqr hs
      · refine ensures_bind.2
          (((steady_sameOutline g).moves_report _ (.unknownCaptureType _) r).mono
          fun _ r' hr => ?_)
        simp only [ensures_bind, ensures_pure, ensures_modify]
        exact hadd name _ r' (hqr.trans hr) hs

/-- A boundary is described by equipping its job.  The namespaces in use may grow before that. -/
theorem ensures_describe {Q : Plan → Prop}
    (h : ∀ bare usings, bareJob g p.symbols b = .ok bare →
      Ensures { p with usings := usings } (equip (rootHandle g) g b bare) fun j r =>
        Q { r with jobs := r.jobs ++ [j] }) :
    Ensures p (describe (rootHandle g) g b) fun _ => Q := by
  refine ensures_bind.2 (ensures_get.2 (ensures_bind.2 (ensures_attempt.2 fun bare hbare => ?_)))
  have hrest : ∀ usings,
      Ensures { p with usings := usings } (equip (rootHandle g) g b bare >>= fun j =>
      modify fun p => { p with jobs := p.jobs ++ [j] }) fun _ => Q := fun usings =>
    ensures_bind.2 ((h bare usings hbare).mono fun j r hr => ensures_modify.2 hr)
  dsimp only
  split
  · exact ensures_bind.2 (ensures_modify.2 (hrest _))
  · exact hrest p.usings

/-- `I` is kept by every step that gives the job of the boundary a field, `I ns` being what holds
when nodes `ns` were looked at. -/
structure Equips (g : Graph) (b : Boundary) (I : List NodeId → Job → Plan → Prop) : Prop where
  jobVariable : ∀ j q i v, (g.jobVariables b.node)[i]? = some v → I [] j q →
    Ensures q (addVariable g j i v) (I [])
  crossing : ∀ j q source inputs, (source, inputs) ∈ b.crossings → I [] j q →
    Ensures q (addCrossing g j source inputs) (I [])
  unavailable : ∀ j q input source, I [] j q →
    Ensures q (reportUnavailable g input source) fun _ r => I [] j r
  member : ∀ j q m, m ∈ b.vars → I [] j q → I [] (addMember g q.symbols j m) q
  property : ∀ j q m, m ∈ b.properties → I [] j q → I [] (addAutoProperty g q.symbols j m) q
  node : ∀ ns j q n, I ns j q → Ensures q (inspect g b j n) (I (ns ++ [n]))

/-- What the steps keep holds when all nodes were looked at.  Then the command buffer is added, if
one of them needs it. -/
theorem Equips.ensures_equip {I : List NodeId → Job → Plan → Prop} {Q : Job → Plan → Prop}
    {bare : Job} (h : Equips g b I) (hstart : I [] bare p)
    (hbuffer : ∀ j q, I (generatedNodes g b) j q →
      (generatedNodes g b).any (fun n => (g.kind? n).any usesCommandBuffer) →
      Ensures q (addCommandBuffer (rootHandle g) g j) Q)
    (hnone : ∀ j q, I (generatedNodes g b) j q →
      ¬(generatedNodes g b).any (fun n => (g.kind? n).any usesCommandBuffer) → Q j q) :
    Ensures p (equip (rootHandle g) g b bare) Q := by
  unfold equip
  refine ensures_bind.2 (Ensures.mono (ensures_foldlM (I := fun _ => I []) hstart
    fun done x rest j q hxs hj => h.jobVariable j q x.2 x.1 ?_ hj) fun j q hj => ?_)
  · have hx : x ∈ (g.jobVariables b.node).zipIdx := by
      rw [Graph.jobVariables, hxs]
      simp
    exact List.mem_zipIdx_iff_getElem?.1 hx
  refine ensures_bind.2 (Ensures.mono (ensures_foldlM (I := fun _ => I []) hj
    fun done x rest j q hxs hj => h.crossing j q x.1 x.2 (by simp [hxs]) hj) fun j q hj => ?_)
  refine ensures_bind.2 (Ensures.mono (ensures_forM (J := fun _ => I [] j) hj
    fun done x rest q _ hj => h.unavailable j q x.1 x.2 hj) fun _ r hj => ?_)
  refine ensures_bind.2 (ensures_get.2 ?_)
  have hvars := List.foldlRecOn (motive := fun j => I [] j r) b.vars (addMember g r.symbols) hj
    fun j hj m hm => h.member j r m hm hj
  have hmembers := List.foldlRecOn (motive := fun j => I [] j r) b.properties
    (addAutoProperty g r.symbols) hvars fun j hj m hm => h.property j r m hm hj
  refine ensures_bind.2 (Ensures.mono (ensures_foldlM (I := I) hmembers
    fun done n _ j q _ hj => h.node done j q n hj) fun j q hj => ?_)
  split
  · exact hbuffer j q hj ‹_›
  · exact ensures_pure.2 (hnone j q hj ‹_›)

/-- After a job is equipped, all crossings of its boundary were made. -/
theorem ensures_equip {bare : Job} (hkeys : (b.crossings.map Prod.fst).Nodup)
    (hbare : bare.fields = []) :
    Ensures p (equip (rootHandle g) g b bare) (Crossed g p bare.node b.crossings) := by
  have hnone : ∀ r, bare.field? (.port r) = none := by
    intro r
    simp [Job.field?, hbare]
  unfold equip
  refine ensures_bind.2 (Ensures.mono (retains_foldlM (fun j x => retains_addVariable _ _) p)
    fun j q hj => ?_)
  have hstart : Crossed g p bare.node [] j q := by
    refine ⟨hj.2.node, hj.1.boundaries, hj.1.jobs, [], hj.1.redirects, ⟨fun s => ?_, ?_⟩⟩
    · simp [hj.2.field, hnone]
    · simp [Captures]
  -- the outputs of the crossings are distinct, so that each gets a field of its own
  refine ensures_bind.2 (Ensures.mono (ensures_foldlM hstart fun done x rest j q hxs hI => ?_)
    fun j q hcrossed => ?_)
  · refine hI.ensures_addCrossing fun is his => ?_
    rw [hxs, List.map_append, List.nodup_append] at hkeys
    exact hkeys.2.2 x.1 (List.mem_map.2 ⟨_, his, rfl⟩) x.1 (by simp) rfl
  · refine ensures_bind.2 (Ensures.mono ((steady_sameOutline g).moves_forM (fun x => ?_) q)
      fun _ r hqr => ?_)
    · exact (steady_sameOutline g).moves_giveUp x.1 ⟨_, .inr rfl⟩
    · have hmembers : ∀ t : SymbolTable, j.SameCaptures
          (b.properties.foldl (addAutoProperty g t) (b.vars.foldl (addMember g t) j)) := fun t =>
        (sameCaptures_foldl fun j m => sameCaptures_addMember t m).trans
          (sameCaptures_foldl fun j m => sameCaptures_addAutoProperty t m)
      refine ensures_bind.2 (ensures_get.2 (ensures_bind.2 (Ensures.mono
        (retains_foldlM (fun j n => retains_inspect b n) r) fun j' r' hj' => ?_)))
      have hend := hcrossed.of_sameOutline (hqr.trans hj'.1) ((hmembers _).trans hj'.2)
      split
      · exact (retains_addCommandBuffer r').mono fun j'' r'' hj'' =>
          hend.of_sameOutline hj''.1 hj''.2
      · exact ensures_pure.2 hend

/-! ## Jobs without fields -/

/-- What a parameter of a job's method is made for: a port of the boundary, which is found by
name. -/
structure PortRequest where
  port : String
  type : String
  mode : PassMode
  attributes : List String := []

def entityRequests (items : List QueryItem) (entityAccess : Bool) : List PortRequest :=
  items.map (fun item => ⟨item.name, TypeRef.nameOrObject item.type, itemMode item.access, []⟩) ++
    if entityAccess then [⟨PortName.entity, "Entity", .byValue, []⟩] else []

def indexRequests (index : EntityIndex) : List PortRequest :=
  (if index.inQuery then [⟨PortName.entityIndexInQuery, "int", .byValue, ["EntityIndexInQuery"]⟩]
    else []) ++
  if index.inChunk then [⟨PortName.entityIndexInChunk, "int", .byValue, ["EntityIndexInChunk"]⟩]
    else []

def chunkRequests : List PortRequest := [
  ⟨PortName.chunk, "ArchetypeChunk", .byIn, []⟩,
  ⟨PortName.chunkIndex, "int", .byValue, []⟩,
  ⟨PortName.useEnabledMask, "bool", .byValue, []⟩,
  ⟨PortName.chunkEnabledMask, "v128", .byIn, []⟩]

/-- The ports that the job of a node has parameters for, in their order. -/
def portRequests (g : Graph) (n : NodeId) : List PortRequest :=
  match g.kind? n with
  | some (.foreach spec) => entityRequests spec.items spec.entityAccess
  | some (.jobEntity spec) =>
      entityRequests spec.items spec.entityAccess ++ indexRequests spec.index
  | some (.jobChunk _) => chunkRequests
  | _ => []

/-- There is a parameter if the port is there and has a name. -/
def PortRequest.param? (g : Graph) (t : SymbolTable) (n : NodeId) (q : PortRequest) :
    Option Declaration.Param :=
  portParam? g t n q.port q.type q.mode q.attributes

/-- What a job has from its boundary before it gets any field. -/
structure Bare (g : Graph) (t : SymbolTable) (b : Boundary) (j : Job) : Prop where
  node : j.node = b.node
  kind : ∃ kind, g.kind? b.node = some kind ∧ kind.hasJob
  body : j.body = b.body
  properties : j.properties = b.properties
  functions : j.functions = b.functions
  fields : j.fields = []
  sortKey : j.sortKey = none
  typeName : t.get? (typeKey b.node) = some j.typeName
  discipline : j.discipline = g.boundaryDiscipline b.node
  params : j.params = (portRequests g b.node).filterMap (PortRequest.param? g t b.node)
  /-- A job over chunks takes the index of the chunk. -/
  chunk : j.contract = .chunk → (∃ spec, g.kind? b.node = some (.jobChunk spec)) ∧
    ∀ r name, g.portRef? b.node PortName.chunkIndex = some r → t.get? (.port r) = some name →
      ∃ x ∈ j.params, x.name = name

section Bare

variable {t : SymbolTable} {x : Declaration.Param}

/-- When a parameter is found for a port, and which. -/
theorem portParam?_eq_some {port type : String} {mode : PassMode} {attributes : List String} :
    portParam? g t n port type mode attributes = some x ↔ ∃ r name, g.portRef? n port = some r ∧
      t.get? (.port r) = some name ∧ x = ⟨name, type, mode, attributes⟩ := by
  simp only [portParam?, Option.bind_eq_bind, Option.bind_eq_some_iff]
  constructor
  · rintro ⟨r, hr, name, hname, hx⟩
    exact ⟨r, name, hr, hname, (Option.some.inj hx).symm⟩
  · rintro ⟨r, name, hr, hname, rfl⟩
    exact ⟨r, hr, name, hname, rfl⟩

/-- The parameters of a job over entities are those of its requests. -/
theorem entityParams_eq (items : List QueryItem) (entityAccess : Bool) :
    entityParams g t n items entityAccess =
      (entityRequests items entityAccess).filterMap (PortRequest.param? g t n) := by
  rw [entityParams, entityRequests, List.filterMap_append, List.filterMap_map]
  congr 1
  split <;> rfl

/-- The index parameters of a job are those of its requests. -/
theorem indexParams_eq (index : EntityIndex) :
    indexParams g t n index = (indexRequests index).filterMap (PortRequest.param? g t n) := by
  rw [indexParams, indexRequests, List.filterMap_append]
  congr 1
  · split <;> rfl
  · split <;> rfl

/-- The index of the chunk is a parameter if its port has a name. -/
theorem exists_chunkIndex {r : PortRef} {name : String}
    (hr : g.portRef? n PortName.chunkIndex = some r) (hname : t.get? (.port r) = some name) :
    ∃ x ∈ chunkParams g t n, x.name = name :=
  ⟨⟨name, "int", .byValue, []⟩, List.mem_filterMap.2 ⟨(PortName.chunkIndex, "int", .byValue),
    by simp, portParam?_eq_some.2 ⟨r, name, hr, hname, rfl⟩⟩, rfl⟩

/-- What a job is before anything is captured. -/
theorem bare_of_bareJob (h : bareJob g t b = .ok j) : Bare g t b j := by
  unfold bareJob at h
  cases htype : t.get? (typeKey b.node) with
  | none =>
    rw [htype] at h
    cases h
  | some typeName =>
    cases hkind : g.kind? b.node with
    | none =>
      rw [htype, hkind] at h
      cases h
    | some kind =>
      simp only [htype, hkind] at h
      split at h
      · obtain rfl := Except.ok.inj h
        exact ⟨rfl, ⟨_, hkind, rfl⟩, rfl, rfl, rfl, rfl, rfl, htype,
          by simp [Graph.boundaryDiscipline, hkind],
          by simp only [portRequests, hkind, entityParams_eq], nofun⟩
      · obtain rfl := Except.ok.inj h
        exact ⟨rfl, ⟨_, hkind, rfl⟩, rfl, rfl, rfl, rfl, rfl, htype,
          by simp [Graph.boundaryDiscipline, hkind],
          by simp only [portRequests, hkind, entityParams_eq, indexParams_eq,
          List.filterMap_append],
          nofun⟩
      · rename_i spec
        obtain rfl := Except.ok.inj h
        exact ⟨rfl, ⟨_, hkind, rfl⟩, rfl, rfl, rfl, rfl, rfl, htype,
          by simp [Graph.boundaryDiscipline, hkind],
          by simp only [portRequests, hkind]; rfl,
          fun _ => ⟨⟨spec, hkind⟩, fun _ _ => exists_chunkIndex⟩⟩
      · cases h

/-- What a job cannot be made without. -/
theorem bareJob_eq_error {e : CompileError} (h : bareJob g t b = .error e) :
    e = .unnamedJob b.node ∧ t.get? (typeKey b.node) = none ∨
    e = .graph (.nodeNotFound b.node) ∧ g.kind? b.node = none ∨
    e = .notBoundary b.node ∧ ∀ kind, g.kind? b.node = some kind → ¬kind.hasJob := by
  unfold bareJob at h
  cases htype : t.get? (typeKey b.node) with
  | none =>
    rw [htype] at h
    exact .inl ⟨(Except.error.inj h).symm, rfl⟩
  | some typeName =>
    cases hkind : g.kind? b.node with
    | none =>
      rw [htype, hkind] at h
      exact .inr (.inl ⟨(Except.error.inj h).symm, rfl⟩)
    | some kind =>
      refine .inr (.inr ?_)
      simp only [htype, hkind] at h
      cases kind with
      | «foreach» _ | jobEntity _ | jobChunk _ => cases h
      | _ =>
        refine ⟨(Except.error.inj h).symm, ?_⟩
        rintro _ ⟨⟩
        exact Bool.false_ne_true

end Bare

/-! ## Boundaries one after another -/

/-- Jobs and redirects of boundaries that were described one after another. -/
inductive Described (g : Graph) : List Boundary → List Job → List (PortRef × NodeId × String) → Prop
  | nil : Described g [] [] []
  | add {b : Boundary} {j : Job} {bs : List Boundary} {js : List Job}
      {new rs : List (PortRef × NodeId × String)} :
      Described g bs js rs → j.node = b.node → Redirected g b.crossings j new →
      Described g (bs ++ [b]) (js ++ [j]) (new ++ rs)

/-- Every boundary gets a job. -/
theorem Described.ensures_describe {bs : List Boundary} (h : Described g bs p.jobs p.redirects)
    (hkeys : (b.crossings.map Prod.fst).Nodup) : Ensures p (describe (rootHandle g) g b) fun _ q =>
      q.boundaries = p.boundaries ∧ Described g (bs ++ [b]) q.jobs q.redirects := by
  refine Planning.ensures_describe fun bare usings hbare => ?_
  have hjob := bare_of_bareJob hbare
  refine (ensures_equip hkeys hjob.fields).mono fun j r hr => ?_
  obtain ⟨rs, hrs, hred⟩ := hr.redirects
  refine ⟨hr.boundaries, ?_⟩
  simp only [hr.jobs, hrs]
  exact h.add (hr.node.trans hjob.node) hred

/-- There is a job for each boundary, in the same order. -/
theorem Described.nodes_eq {bs : List Boundary} {js : List Job}
    {rs : List (PortRef × NodeId × String)}
    (h : Described g bs js rs) : js.map Job.node = bs.map Boundary.node := by
  induction h with
  | nil => rfl
  | add _ hnode _ ih =>
      rw [List.map_append, List.map_append, ih, List.map_singleton, List.map_singleton,
      hnode]

/-! ## The whole plan -/

/-- Before anything is described: boundaries of the nodes passed, in their order. -/
structure Claimed (g : Graph) (ns : List NodeId) (p : Plan) : Prop where
  jobs : p.jobs = []
  redirects : p.redirects = []
  nodes : (p.boundaries.map Boundary.node).Sublist ns
  analyzed : ∀ b ∈ p.boundaries, ∃ body, Boundary.analyze? g b.node body = some b

theorem Claimed.of_sameOutline {ns : List NodeId} (h : Claimed g ns p) (hpq : SameOutline p q) :
    Claimed g ns q where
  jobs := hpq.jobs.trans h.jobs
  redirects := hpq.redirects.trans h.redirects
  nodes := hpq.boundaries ▸ h.nodes
  analyzed := hpq.boundaries ▸ h.analyzed

theorem Claimed.pass {ns : List NodeId} (h : Claimed g ns p) : Claimed g (ns ++ [n]) p :=
  { h with nodes := h.nodes.trans (List.sublist_append_left ns [n]) }

/-- Claiming a body adds a boundary for its node, if there is something in it. -/
theorem Claimed.ensures_claimBody {ns : List NodeId} (h : Claimed g ns p) (port : String) :
    Ensures p (claimBody g n port) fun _ => Claimed g (ns ++ [n]) := by
  refine ensures_bind.2 (ensures_ofGraph.2 fun body _ => ?_)
  split
  · rename_i b hb
    refine ensures_modify.2 ⟨h.jobs, h.redirects, ?_, ?_⟩
    · rw [List.map_append]
      refine h.nodes.append ?_
      simp [Boundary.node_eq hb]
    · intro b' hb'
      rcases List.mem_append.1 hb' with hold | hnew
      · exact h.analyzed b' hold
      · obtain rfl : b' = b := by simpa using hnew
        exact ⟨body, Boundary.node_eq hb ▸ hb⟩
  · exact ((steady_sameOutline g).moves_report _ (.nestedUnitFailed _) p).mono fun _ q hpq =>
      h.pass.of_sameOutline hpq

theorem Claimed.ensures_claim {ns : List NodeId} (h : Claimed g ns p) :
    Ensures p (claim g n) fun _ => Claimed g (ns ++ [n]) := by
  have hnamed : ∀ key hint port, Ensures p (register key hint >>= fun _ => claimBody g n port)
      fun _ => Claimed g (ns ++ [n]) := fun key hint port =>
    ensures_bind.2 (((steady_sameOutline g).moves_register key hint p).mono fun _ q hpq =>
      (h.of_sameOutline hpq).ensures_claimBody port)
  refine ensures_bind.2 (ensures_ofGraph.2 fun node _ => ?_)
  split
  · exact hnamed _ _ _
  · exact hnamed _ _ _
  · exact hnamed _ _ _
  · exact ensures_pure.2 h.pass

/-! ## The three passes of planning -/

/-- Every function has the name of its method. -/
theorem run_declareFunctions (g : Graph) : (g.indexedMembers.forM fun (id, m) =>
    declareFunction g id m).run (.start g) = .ok (⟨⟩, .start g) := by
  have hall : ∀ xs ⊆ g.indexedMembers,
      (xs.forM fun (id, m) => declareFunction g id m).run (.start g) =
      .ok (⟨⟩, .start g) := by
    intro xs hxs
    induction xs with
    | nil => rfl
    | cons x xs ih =>
      obtain ⟨hx, hrest⟩ := List.cons_subset.1 hxs
      refine (run_bind_of_ok (a := ⟨⟩) ?_).trans (ih hrest)
      dsimp only [declareFunction]
      split
      · rename_i hfunction
        have hmember := Graph.mem_indexedMembers.1 hx
        obtain ⟨fn, hfn⟩ := Option.isSome_iff_exists.1 hfunction
        obtain ⟨name, hname⟩ := exists_memberSymbol hmember
        have hok : functionName g (Plan.start g).symbols x.1 = .ok name :=
          functionName_eq_ok.2 ⟨⟨fn, Option.bind_eq_some_iff.2 ⟨x.2, hmember, hfn⟩⟩, hname⟩
        change (attempt (functionName g (Plan.start g).symbols x.1) >>= fun _ => _).run _ = _
        rw [hok]
        rfl
      · rfl
  exact hall _ (List.Subset.refl _)

/-- A plan is made by claiming bodies, naming outputs and describing the boundaries claimed. -/
theorem make_eq_ok (h : Plan.make g = .ok p) : ∃ q r,
    ((g.nodesWith .preInit).forM (claim g)).run (.start g) = .ok ((), q) ∧
    ((g.nodesWith .init).forM (nameNode (rootHandle g) g)).run q = .ok ((), r) ∧
    (r.boundaries.forM (describe (rootHandle g) g)).run r = .ok ((), p) := by
  unfold Plan.make at h
  cases hrun : (planAll g).run (.start g) with
  | error e => simp [hrun, Except.map] at h
  | ok x =>
    obtain rfl : x.2 = p := by simpa [hrun, Except.map] using h
    rw [planAll, planWith, run_bind_of_ok (run_declareFunctions g)] at hrun
    simp only [StateT.run_bind, bind_eq_ok] at hrun
    obtain ⟨⟨⟨⟩, q⟩, hclaim, ⟨⟨⟩, r⟩, hname, ⟨_, _⟩, hget, hdescribe⟩ := hrun
    cases hget
    exact ⟨q, r, hclaim, hname, hdescribe⟩

/-- After all claims, the boundaries are those of the nodes that were claimed, in order. -/
theorem ensures_claims (g : Graph) : Ensures (.start g) ((g.nodesWith .preInit).forM (claim g))
    fun _ => Claimed g (g.nodesWith .preInit) :=
  ensures_forM ⟨rfl, rfl, .slnil, by simp [Plan.start]⟩ fun _ _ _ _ _ hJ => hJ.ensures_claim

theorem moves_names (g : Graph) :
    Moves SameOutline ((g.nodesWith .init).forM (nameNode (rootHandle g) g)) :=
  (steady_sameOutline g).moves_forM fun n => (steady_sameOutline g).moves_nameNode n
    fun _ _ _ _ _ => ⟨rfl, rfl, rfl⟩

/-- Boundaries of a plan with their jobs and redirects. -/
structure Outlined (g : Graph) (p : Plan) : Prop where
  ascending : p.boundaries.Pairwise fun b c => b.node.index < c.node.index
  analyzed : ∀ b ∈ p.boundaries, ∃ body, Boundary.analyze? g b.node body = some b
  described : Described g p.boundaries p.jobs p.redirects

/-- Nodes are visited in order. -/
theorem pairwise_nodesWith (g : Graph) (c : Capability) :
    (g.nodesWith c).Pairwise fun m n => m.index < n.index := by
  refine List.Pairwise.filter _ (List.pairwise_map.2 ?_)
  exact List.pairwise_lt_range.filter _

/-- The boundaries claimed are described one after another. -/
theorem Claimed.ensures_describes {ns : List NodeId} (h : Claimed g ns p) :
    Ensures p (p.boundaries.forM (describe (rootHandle g) g)) fun _ q =>
      q.boundaries = p.boundaries ∧ Described g p.boundaries q.jobs q.redirects := by
  refine ensures_forM (J := fun done q => q.boundaries = p.boundaries ∧
    Described g done q.jobs q.redirects) ⟨rfl, ?_⟩ fun done b rest q hbs hJ => ?_
  · rw [h.jobs, h.redirects]
    exact .nil
  · obtain ⟨body, hb⟩ := h.analyzed b (by simp [hbs])
    refine (hJ.2.ensures_describe (Boundary.nodup_crossings hb)).mono fun _ q' hq' => ?_
    exact ⟨hq'.1.trans hJ.1, hq'.2⟩

/-- Jobs, boundaries and redirects of every plan are in step. -/
theorem outlined_make (h : Plan.make g = .ok p) : Outlined g p := by
  obtain ⟨q, r, hclaim, hname, hdescribe⟩ := make_eq_ok h
  have hr := (ensures_claims g _ q hclaim).of_sameOutline (moves_names g q _ r hname)
  obtain ⟨hboundaries, hdescribed⟩ := hr.ensures_describes _ p hdescribe
  refine ⟨?_, hboundaries ▸ hr.analyzed, hboundaries ▸ hdescribed⟩
  have hnodes := (pairwise_nodesWith g .preInit).sublist hr.nodes
  rw [List.pairwise_map] at hnodes
  exact hboundaries ▸ hnodes

end Planning

end EntityFlow
