import EntityFlow.Proofs.Planning.Provenance

/-!
# The fields of a job

Describing looks at every node that may be generated into a job, and gives the job what the node
will need: a lookup for a component that is read, and the command buffer if entities are written.
All other fields hold values of the unit.  No two fields hold the same, and what a field is set to
where the job is constructed goes by what it holds.
-/

namespace EntityFlow

namespace Job

variable {j : Job} {f f' : CaptureField} {owner : CaptureOwner}

/-- What the fields hold. -/
def owners (j : Job) : List CaptureOwner := j.fields.map CaptureField.owner

theorem mem_owners : owner ∈ j.owners ↔ ∃ f ∈ j.fields, f.owner = owner := List.mem_map

/-- A job has a field for an owner exactly if the owner is listed. -/
theorem isSome_field? : (j.field? owner).isSome = true ↔ owner ∈ j.owners := by
  simp [field?, mem_owners]

/-- A field is the one for its owner. -/
theorem field?_of_mem (hnodup : j.owners.Nodup) (hf : f ∈ j.fields) : j.field? f.owner = some f :=
  find?_of_nodup_map hnodup hf

/-- A field adds its owner. -/
theorem mem_owners_addField : owner ∈ (j.addField f).owners ↔ owner ∈ j.owners ∨
    owner = f.owner := by
  rw [← isSome_field?, field?_addField, Option.isSome_or, Bool.or_eq_true, isSome_field?]
  by_cases h : f.owner = owner
  · simp [h]
  · simp [h, Ne.symm h]

theorem mem_fields_addField (h : f' ∈ (j.addField f).fields) : f' ∈ j.fields ∨ f' = f := by
  unfold addField at h
  split at h
  · exact .inl h
  · simpa using h

/-- No owner gets two fields. -/
theorem nodup_addField (h : j.owners.Nodup) : (j.addField f).owners.Nodup := by
  unfold addField
  split
  · exact h
  · rename_i hnew
    rw [isSome_field?] at hnew
    rw [owners, List.map_append, List.map_singleton]
    exact List.nodup_append.2 ⟨h, List.nodup_singleton _, by
      rintro x hx y hy rfl
      exact hnew (List.mem_singleton.1 hy ▸ hx)⟩

end Job

namespace Planning

open Naming

variable {g : Graph} {p q : Plan} {b : Boundary} {j : Job} {f : CaptureField} {n : NodeId}
  {ns : List NodeId} {buffer : Prop}

/-! ## What fields are set to -/

/-- What a field of the job of node `n` is set to where the job is constructed, by what it holds.
The command buffer is the one that the update method declares. -/
inductive Fits (p : Plan) (n : NodeId) : CaptureOwner → CaptureSource → Prop
  | port (r : PortRef) : Fits p n (.port r) (.port r)
  | jobVariable (i : Nat) : Fits p n (.jobVariable i) (.jobVariable i)
  | copied (m : MemberId) (name : String) :
      Fits p n (.variable m) (.expression (.member m none name))
  | auto (m : MemberId) (name : String) :
      Fits p n (.property m) (.expression (.member m none name))
  | lookup (type : String) : Fits p n (.lookup type) (.expression
      (.invokeOn (.ident "SystemAPI") "GetComponentLookup" [type] [.ident "true"]))
  | buffer (name : String) (h : Declares p .commandBuffer name) :
      Fits p n .commandBuffer (.expression (.handle .commandBuffer name (.job n)))
  | writer (name : String) (h : Declares p .commandBuffer name) :
      Fits p n .commandBuffer
        (.expression (.invokeOn (.handle .commandBuffer name (.job n)) "AsParallelWriter" [] []))

/-- What fits a plan fits every plan that keeps its handles. -/
theorem Fits.mono {owner : CaptureOwner} {source : CaptureSource} (h : Fits p n owner source)
    (hpq : KeepsHandles p q) : Fits q n owner source := by
  cases h with
  | port r => exact .port r
  | jobVariable i => exact .jobVariable i
  | copied m name => exact .copied m name
  | auto m name => exact .auto m name
  | lookup type => exact .lookup type
  | buffer name h => exact .buffer name (hpq _ _ h)
  | writer name h => exact .writer name (hpq _ _ h)

def ReadsComponent (g : Graph) (n : NodeId) (type : String) : Prop :=
  ∃ c, g.kind? n = some (.getComponent (some c)) ∧ c.name = type

def WritesEntities (g : Graph) (n : NodeId) : Prop :=
  ∃ kind, g.kind? n = some kind ∧ usesCommandBuffer kind = true

/-- The command buffer is used exactly if some node writes entities. -/
theorem any_usesCommandBuffer {ns : List NodeId} :
    (ns.any fun n => (g.kind? n).any usesCommandBuffer) = true ↔ ∃ n ∈ ns, WritesEntities g n := by
  simp [WritesEntities, Option.any_eq_true]

/-- A job with the fields for the components that nodes `ns` read, and with the command buffer if
`buffer` holds. -/
structure Equipped (g : Graph) (ns : List NodeId) (buffer : Prop) (p : Plan) (j : Job) : Prop where
  fits : ∀ f ∈ j.fields, Fits p j.node f.owner f.source
  nodup : j.owners.Nodup
  lookup : ∀ type, .lookup type ∈ j.owners ↔ ∃ n ∈ ns, ReadsComponent g n type
  commandBuffer : .commandBuffer ∈ j.owners ↔ buffer

namespace Equipped

/-- A job that is equipped stays so while handles are kept. -/
theorem mono (h : Equipped g ns buffer p j) (hpq : KeepsHandles p q) : Equipped g ns buffer q j :=
  { h with fits := fun f hf => (h.fits f hf).mono hpq }

theorem bare (h : j.fields = []) : Equipped g [] False p j := by
  constructor <;> simp [Job.owners, h]

/-- A field that fits keeps all fields fitting. -/
theorem fits_addField (h : Equipped g ns buffer p j) (hf : Fits p j.node f.owner f.source) :
    ∀ f' ∈ (j.addField f).fields, Fits p (j.addField f).node f'.owner f'.source := by
  intro f' hf'
  rw [Job.node_addField]
  rcases Job.mem_fields_addField hf' with hold | rfl
  · exact h.fits f' hold
  · exact hf

/-- A field that has nothing to do with entities. -/
theorem addField (h : Equipped g ns buffer p j) (hf : Fits p j.node f.owner f.source)
    (hlookup : ∀ type, f.owner ≠ .lookup type) (hbuffer : f.owner ≠ .commandBuffer) :
    Equipped g ns buffer p (j.addField f) where
  fits := h.fits_addField hf
  nodup := Job.nodup_addField h.nodup
  lookup type := by
    rw [Job.mem_owners_addField, or_iff_left (hlookup type).symm]
    exact h.lookup type
  commandBuffer := by
    rw [Job.mem_owners_addField, or_iff_left hbuffer.symm]
    exact h.commandBuffer

/-! ### Values of the unit -/

/-- Adding a variable keeps the job equipped. -/
theorem ensures_addVariable (h : Equipped g ns buffer p j) (i : Nat) (v : JobVariable) :
    Ensures p (addVariable g j i v) fun j' q => Equipped g ns buffer q j' := by
  unfold addVariable
  split
  · exact ensures_pure.2 h
  · refine ensures_bind.2
      (((lasting_keepsHandles g).moves_register _ _ p).mono fun name q hpq => ?_)
    exact ensures_pure.2 ((h.mono hpq).addField (.jobVariable i) nofun nofun)

/-- Adding a crossing keeps the job equipped. -/
theorem ensures_addCrossing (h : Equipped g ns buffer p j) (source : PortRef)
    (inputs : List PortRef) :
    Ensures p (addCrossing g j source inputs) fun j' q => Equipped g ns buffer q j' := by
  have hl := lasting_keepsHandles g
  have hadd : ∀ (q : Plan) (name type : String), KeepsHandles p q → Ensures q (do
      modify fun p =>
        { p with redirects := (inputs.map fun i => (i, j.node, name)).reverse ++ p.redirects }
      return j.addField ⟨name, type, false, .port source, .port source⟩)
        fun j' q => Equipped g ns buffer q j' := by
    intro q name type hpq
    refine ensures_bind.2 (ensures_modify.2 (ensures_pure.2 ?_))
    exact (h.mono (hpq.trans (hl.redirects q _))).addField (.port source) nofun nofun
  unfold addCrossing
  split
  · exact ensures_pure.2 h
  · split
    · refine ensures_bind.2 (Ensures.mono (hl.moves_forM (fun input => ?_) p) fun _ q hpq => ?_)
      · exact hl.moves_giveUp input ⟨_, .inl rfl⟩
      · exact ensures_pure.2 (h.mono hpq)
    · refine ensures_bind.2 ((hl.moves_nameCapture j.node source _ p).mono fun name q hpq => ?_)
      dsimp only
      split
      · exact hadd q name _ hpq
      · refine ensures_bind.2 ((hl.moves_report _ (.unknownCaptureType _) q).mono fun _ r hqr => ?_)
        exact hadd r name _ (hpq.trans hqr)

theorem addMember (h : Equipped g ns buffer p j) (t : SymbolTable) (m : MemberId) :
    Equipped g ns buffer p (addMember g t j m) := by
  unfold Planning.addMember
  split
  · exact h.addField (.copied m _) nofun nofun
  · exact h

theorem addAutoProperty (h : Equipped g ns buffer p j) (t : SymbolTable) (m : MemberId) :
    Equipped g ns buffer p (addAutoProperty g t j m) := by
  unfold Planning.addAutoProperty
  split
  · split
    · exact h.addField (.auto m _) nofun nofun
    · exact h
  · exact h

/-! ### Entities -/

/-- A node that reads no component changes nothing. -/
theorem pass (h : Equipped g ns buffer p j) (hn : ∀ type, ¬ReadsComponent g n type) :
    Equipped g (ns ++ [n]) buffer p j where
  fits := h.fits
  nodup := h.nodup
  lookup type := by
    rw [h.lookup]
    simp [or_and_right, exists_or, hn]
  commandBuffer := h.commandBuffer

/-- Adding a lookup equips the job for the node that reads the component. -/
theorem ensures_addLookup {c : TypeRef} (h : Equipped g ns buffer p j)
    (hn : g.kind? n = some (.getComponent (some c))) :
    Ensures p (addLookup j c) fun j' q => Equipped g (ns ++ [n]) buffer q j' := by
  have hreads : ∀ type, ReadsComponent g n type ↔ type = c.name := by
    intro type
    simp [ReadsComponent, hn, eq_comm]
  have hnodes : ∀ type, (∃ m ∈ ns ++ [n], ReadsComponent g m type) ↔
      (∃ m ∈ ns, ReadsComponent g m type) ∨ type = c.name := by
    intro type
    simp [or_and_right, exists_or, hreads]
  unfold addLookup
  split
  · rename_i hthere
    refine ensures_pure.2 { h with lookup := fun type => ?_ }
    rw [hnodes, ← h.lookup]
    refine ⟨.inl, ?_⟩
    rintro (hold | rfl)
    · exact hold
    · exact Job.isSome_field?.1 hthere
  · refine ensures_bind.2 (((lasting_keepsHandles g).moves_fresh _ p).mono fun name q hpq => ?_)
    refine ensures_pure.2 ⟨(h.mono hpq).fits_addField (.lookup _),
      Job.nodup_addField h.nodup, ?_, ?_⟩
    · intro type
      rw [Job.mem_owners_addField, h.lookup, hnodes, CaptureOwner.lookup.injEq]
    · rw [Job.mem_owners_addField, or_iff_left nofun]
      exact h.commandBuffer

/-- Inspecting a node equips the job for it. -/
theorem ensures_inspect (h : Equipped g ns buffer p j) (n : NodeId) :
    Ensures p (inspect g b j n) fun j' q => Equipped g (ns ++ [n]) buffer q j' := by
  unfold inspect
  split
  · rename_i c hn
    exact h.ensures_addLookup hn
  · rename_i hn
    have hpass := h.pass (n := n) fun type => by simp [ReadsComponent, hn]
    refine ensures_bind.2 (ensures_get.2 ?_)
    split
    · refine ensures_bind.2 (((lasting_keepsHandles g).moves_report _ (.writeToCapture _) p).mono
        fun _ q hpq => ?_)
      exact ensures_pure.2 (hpass.mono hpq)
    · exact ensures_pure.2 hpass
  · rename_i hn _
    refine ensures_pure.2 (h.pass fun type => ?_)
    rintro ⟨c, hc, -⟩
    exact hn c hc

/-- Adding the command buffer equips the job for the nodes that write. -/
theorem ensures_addCommandBuffer (h : Equipped g ns False p j) :
    Ensures p (addCommandBuffer (rootHandle g) g j) fun j' q => Equipped g ns True q j' := by
  have hl := lasting_keepsHandles g
  have hadd : ∀ (q : Plan) (name type : String) (source : CaptureSource), KeepsHandles p q →
      Fits q j.node .commandBuffer source →
      Equipped g ns True q (j.addField ⟨name, type, true, .commandBuffer, source⟩) := by
    intro q name type source hpq hfits
    refine ⟨(h.mono hpq).fits_addField hfits, Job.nodup_addField h.nodup, fun type => ?_, ?_⟩
    · rw [Job.mem_owners_addField, or_iff_left nofun]
      exact h.lookup type
    · simp [Job.mem_owners_addField]
  refine ensures_bind.2 (((hl.moves_rootHandle .commandBuffer p).and ensures_rootHandle).mono ?_)
  rintro name q ⟨hpq, hdeclared⟩
  split
  · exact ensures_pure.2 (hadd q name _ _ hpq (.buffer name hdeclared))
  · dsimp only
    split
    · refine ensures_bind.2 ((hl.moves_register _ _ q).mono fun key r hqr => ensures_pure.2 ?_)
      have hjob := hadd r name "EntityCommandBuffer.ParallelWriter" _ (hpq.trans hqr)
        (.writer name (hqr _ _ hdeclared))
      exact ⟨hjob.fits, hjob.nodup, hjob.lookup, hjob.commandBuffer⟩
    · refine ensures_bind.2 (ensures_get.2 (ensures_pure.2 ?_))
      have hjob := hadd q name "EntityCommandBuffer.ParallelWriter" _ hpq (.writer name hdeclared)
      exact ⟨hjob.fits, hjob.nodup, hjob.lookup, hjob.commandBuffer⟩

end Equipped

theorem equips_equipped : Equips g b fun ns j q => Equipped g ns False q j where
  jobVariable _ _ _ _ _ h := h.ensures_addVariable _ _
  crossing _ _ _ _ _ h := h.ensures_addCrossing _ _
  unavailable _ q input _ h :=
    ((lasting_keepsHandles g).moves_giveUp input ⟨_, .inr rfl⟩ q).mono fun _ _ hqr => h.mono hqr
  member _ q m _ h := h.addMember q.symbols m
  property _ q m _ h := h.addAutoProperty q.symbols m
  node _ _ _ n h := h.ensures_inspect n

/-- The loop over the nodes that may be generated into the job gives it a field for each component
that one of them reads. -/
theorem ensures_equip_equipped {bare : Job} (hbare : bare.fields = []) :
    Ensures p (equip (rootHandle g) g b bare) fun j q => Equipped g (generatedNodes g b)
      (∃ n ∈ generatedNodes g b, WritesEntities g n) q j := by
  refine equips_equipped.ensures_equip (.bare hbare) (fun j q hj hwrites => ?_)
    fun j q hj hwrites => ?_
  · refine hj.ensures_addCommandBuffer.mono fun j' q' hj' => { hj' with commandBuffer := ?_ }
    rw [← any_usesCommandBuffer, iff_true_right hwrites]
    simpa using hj'.commandBuffer
  · refine { hj with commandBuffer := ?_ }
    rw [← any_usesCommandBuffer, iff_false_right hwrites]
    simpa using hj.commandBuffer

/-- Every job serves a boundary of the plan, and has the fields that the nodes of the boundary
need. -/
theorem exists_equipped (h : Plan.make g = .ok p) (hj : j ∈ p.jobs) : ∃ b ∈ p.boundaries,
    (Serves b j ∧ Equipped g (generatedNodes g b) (∃ n ∈ generatedNodes g b, WritesEntities g n)
      p j) ∧ Hangs g b ∧ Boundary.analyze? g b.node b.body = some b := by
  refine exists_boundary (lasting_keepsHandles g) (I := fun _ => True)
    (P := fun p b j => Serves b j ∧ Equipped g (generatedNodes g b)
      (∃ n ∈ generatedNodes g b, WritesEntities g n) p j)
    (fun _ _ _ => id) ?_ (fun _ _ => trivial) ?_ h hj
  · rintro p q b j hpq ⟨hserves, hequipped⟩
    exact ⟨hserves, hequipped.mono hpq⟩
  · intro b q bare _ hbare
    exact (serves_bareJob hbare).ensures_equip.and
      (ensures_equip_equipped (bare_of_bareJob hbare).fields)

end Planning

end EntityFlow
