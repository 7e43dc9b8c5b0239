import EntityFlow.Proofs.Unit.Source
import EntityFlow.Proofs.Generation.Drafts
import EntityFlow.Proofs.Generation.Entities
import EntityFlow.Proofs.Planning.Holdings

/-!
# What parallel jobs may write

A job runs in parallel if one of its executors asks for it, however the others run it.  In its type
every field is then read-only, except for the command buffer and for variables declared mutable, so
that whoever schedules the type in parallel shares nothing that could be written.
-/

namespace EntityFlow

/-! ## Disciplines -/

namespace Discipline

theorem isParallel_iff {d : Discipline} : d.isParallel ↔ d = .scheduleParallel := by
  cases d <;> simp [isParallel]

/-- The more parallel of two disciplines is parallel if one of them is. -/
theorem isParallel_max {d e : Discipline} : (d.max e).isParallel ↔ d.isParallel ∨ e.isParallel := by
  cases d <;> cases e <;> simp [max, isParallel]

/-- The most parallel of several disciplines is parallel if one of them is. -/
theorem isParallel_foldl_max {d : Discipline} {ds : List Discipline} :
    (ds.foldl max d).isParallel ↔ ∃ e ∈ d :: ds, e.isParallel := by
  induction ds generalizing d with
  | nil => simp
  | cons e ds ih =>
    rw [List.foldl_cons, ih]
    simp [isParallel_max, or_assoc]

end Discipline

namespace Graph

variable {g : Graph} {n e : NodeId}

theorem mem_executorsOf : e ∈ g.executorsOf n ↔ ∃ d, g.kind? e = some (.executor d (some n)) := by
  unfold executorsOf nodesWhere
  rw [List.mem_filter]
  constructor
  · rintro ⟨-, hany⟩
    obtain ⟨kind, hkind, hexecutes⟩ := (Option.any_eq_true _ _).1 hany
    split at hexecutes
    · obtain rfl := of_decide_eq_true hexecutes
      exact ⟨_, hkind⟩
    · exact absurd hexecutes nofun
  · rintro ⟨d, hd⟩
    obtain ⟨node, hnode, -⟩ := Option.map_eq_some_iff.1 hd
    exact ⟨mem_nodeIds.2 ⟨node, hnode⟩, by simp [hd]⟩

/-- One executor that schedules in parallel is enough. -/
theorem isParallel_jobDiscipline : (g.jobDiscipline n).isParallel ↔
    ∃ e, g.kind? e = some (.executor .scheduleParallel (some n)) := by
  unfold jobDiscipline
  dsimp only
  generalize hds : List.filterMap _ (g.executorsOf n) = ds
  have hmem : ∀ d, d ∈ ds ↔ ∃ e, g.kind? e = some (.executor d (some n)) := by
    intro d
    rw [← hds, List.mem_filterMap]
    constructor
    · rintro ⟨e, he, hrun⟩
      obtain ⟨d', hkind⟩ := mem_executorsOf.1 he
      rw [hkind] at hrun
      obtain rfl := Option.some.inj hrun
      exact ⟨e, hkind⟩
    · rintro ⟨e, he⟩
      exact ⟨e, mem_executorsOf.2 ⟨_, he⟩, by rw [he]⟩
  rw [← hmem]
  cases ds with
  | nil => simp [Discipline.isParallel]
  | cons d ds =>
    rw [Discipline.isParallel_foldl_max]
    simp [Discipline.isParallel_iff]

/-- The body of the node runs in parallel: a loop that says so, or a job with an executor that
does. -/
inductive RunsParallel (g : Graph) (n : NodeId) : Prop
  | loop {spec : ForeachSpec} (hn : g.kind? n = some (.foreach spec))
      (hrun : spec.run = .scheduleParallel)
  | job {kind : NodeKind} {e : NodeId} (hn : g.kind? n = some kind) (hjob : kind.isJob)
      (he : g.kind? e = some (.executor .scheduleParallel (some n)))

/-- The discipline of a boundary tells whether its body runs in parallel. -/
theorem isParallel_boundaryDiscipline {kind : NodeKind} (hn : g.kind? n = some kind)
    (hbody : kind.hasJob) : (g.boundaryDiscipline n).isParallel ↔ g.RunsParallel n := by
  have hjob : kind.isJob → g.boundaryDiscipline n = g.jobDiscipline n →
      ((g.boundaryDiscipline n).isParallel ↔ g.RunsParallel n) := by
    intro hjob hsame
    rw [hsame, isParallel_jobDiscipline]
    constructor
    · rintro ⟨e, he⟩
      exact .job hn hjob he
    · rintro (⟨hn', -⟩ | ⟨-, -, he⟩)
      · obtain rfl := Option.some.inj (hn.symm.trans hn')
        cases hjob
      · exact ⟨_, he⟩
  cases kind with
  | «foreach» spec =>
    simp only [boundaryDiscipline, hn, Discipline.isParallel_iff]
    constructor
    · exact .loop hn
    · rintro (⟨hn', hrun⟩ | ⟨hn', hjob, -⟩)
      · obtain ⟨⟩ := Option.some.inj (hn.symm.trans hn')
        exact hrun
      · obtain rfl := Option.some.inj (hn.symm.trans hn')
        cases hjob
  | jobEntity spec => exact hjob rfl (by simp only [boundaryDiscipline, hn])
  | jobChunk spec => exact hjob rfl (by simp only [boundaryDiscipline, hn])
  | _ => cases hbody

end Graph

/-- A job that some node runs in parallel is compiled for it. -/
theorem Plan.Constructs.runsParallel {p : Plan} {g : Graph} {n : NodeId} {j : Job}
    {executor : Option NodeId} (hg : g.Reachable)
    (h : p.Constructs g n j executor .scheduleParallel) : g.RunsParallel j.node := by
  have hnode : ∀ {m : NodeId}, p.job? m = some j → j.node = m := by
    intro m hj
    simpa using List.find?_some hj
  generalize hd : Discipline.scheduleParallel = d at h
  cases h with
  | loop hn hrun hj => exact .loop (hnode hj ▸ hn) hd.symm
  | executor hn hj =>
    obtain ⟨node, hnode', hkind⟩ := Option.map_eq_some_iff.1 hn
    have hrefers := hg.invariant.refers n node hnode'
    rw [hkind] at hrefers
    obtain ⟨kind, hjob, hisJob⟩ := hrefers
    exact .job (hnode hj ▸ hjob) hisJob (hnode hj ▸ hd ▸ hn)

namespace Planning

variable {g : Graph} {p : Plan} {b : Boundary} {t : SymbolTable} {f : CaptureField}

/-- The fields that a parallel job may write to. -/
inductive Writable (g : Graph) (n : NodeId) : CaptureOwner → Prop
  | commandBuffer : Writable g n .commandBuffer
  | jobVariable {i : Nat} {v : JobVariable} (hv : (g.jobVariables n)[i]? = some v)
      (hmutable : v.isMutable) : Writable g n (.jobVariable i)

/-- The mutable fields are those, wherever they come from. -/
theorem Held.isMutable_iff (h : Held g b t f) : f.isMutable ↔ Writable g b.node f.owner := by
  cases h with
  | jobVariable hv hr hname =>
    refine ⟨.jobVariable hv, ?_⟩
    rintro (_ | ⟨hv', hmutable⟩)
    obtain rfl := Option.some.inj (hv.symm.trans hv')
    exact hmutable
  | commandBuffer hname => exact iff_of_true rfl .commandBuffer
  | crossing | copied | auto | lookup => exact iff_of_false nofun nofun

/-- A job is planned to run in parallel exactly if its body does. -/
theorem Furnished.isParallel_iff {j : Job} (h : Furnished g p b j) :
    j.discipline.isParallel ↔ g.RunsParallel j.node := by
  obtain ⟨kind, hkind, hbody⟩ := h.kind
  rw [h.discipline, h.node]
  exact Graph.isParallel_boundaryDiscipline hkind hbody

end Planning

/-- The fields of a job that are fields of its type; auto properties are declared as properties. -/
def Job.declared (j : Job) : List CaptureField :=
  j.fields.filter fun f =>
    match f.owner with
    | .property _ => false
    | _ => true

def Declaration.Field.IsReadOnly (f : Declaration.Field) : Prop :=
  "Unity.Collections.ReadOnly" ∈ f.attributes

/-- Fields that hold something of the unit: a value, a member or the components of a type. -/
inductive CaptureOwner.IsShared : CaptureOwner → Prop
  | port (r : PortRef) : IsShared (.port r)
  | copied (m : MemberId) : IsShared (.variable m)
  | lookup (component : String) : IsShared (.lookup component)

namespace Assembly

open Planning Text

variable {g : Graph} {options : Options} {a : Assembly} {b : JobBody} {f : CaptureField} {j : Job}

/-- A field is read-only exactly if the job runs in parallel and the field is not mutable. -/
theorem isReadOnly_jobField :
    (jobField j f).IsReadOnly ↔ j.discipline.isParallel ∧ ¬f.isMutable := by
  unfold Declaration.Field.IsReadOnly jobField
  cases j.discipline.isParallel <;> cases f.isMutable <;> simp

def writableLine (f : CaptureField) : String := "public " ++ f.type ++ " " ++ f.name ++ ";"

def readOnlyLine (f : CaptureField) : String := "[Unity.Collections.ReadOnly] " ++ writableLine f

/-- The line that declares a field in the type of a job. -/
inductive FieldLine (g : Graph) (j : Job) (f : CaptureField) : String → Prop
  | readOnly (h : j.discipline.isParallel ∧ ¬Writable g j.node f.owner) :
      FieldLine g j f (readOnlyLine f)
  | writable (h : ¬(j.discipline.isParallel ∧ ¬Writable g j.node f.owner)) :
      FieldLine g j f (writableLine f)

/-- The line of a field that is read-only. -/
theorem FieldLine.eq_readOnlyLine {text : String} (h : FieldLine g j f text)
    (hparallel : j.discipline.isParallel) (hwritable : ¬Writable g j.node f.owner) :
    text = readOnlyLine f := by
  cases h with
  | readOnly => rfl
  | writable h => exact absurd ⟨hparallel, hwritable⟩ h

/-- What a job shares with the unit is not writable in it. -/
theorem not_writable_of_isShared {owner : CaptureOwner} {n : NodeId} (h : owner.IsShared) :
    ¬Writable g n owner := by
  cases h <;> exact nofun

/-- The text of a job has the lines of its fields directly after the opening of its type. -/
theorem exists_rows_jobText (a : Assembly) (b : JobBody) : ∃ above below, rows (a.jobText b) =
    above ++ rows (a.jobType b).opening ++
      (((a.jobType b).fields.map Declaration.Field.line).flatMap rows).map (shift a.unit.toList) ++
      below := by
  obtain ⟨below, hrows⟩ := (a.jobType b).exists_rows_eq a.unit.toList
  rw [rows_jobText, hrows]
  simp only [List.append_assoc]
  rw [← List.append_assoc]
  exact ⟨_, _, rfl⟩

/-- What is read-only in the type of a job, and in which types everything that is shared is.  The
fields of the type are declared in the lines `texts`. -/
structure ReadOnlyCaptures (g : Graph) (a : Assembly) (b : JobBody)
    (texts : List String) : Prop where
  parallel : b.job.discipline.isParallel ↔ g.RunsParallel b.job.node
  fields : List.Forall₂ (fun field f => field.name = f.name ∧ (field.IsReadOnly ↔
      b.job.discipline.isParallel ∧ ¬Writable g b.job.node f.owner))
    (a.jobType b).fields b.job.declared
  lines : List.Forall₂ (FieldLine g b.job) b.job.declared texts
  /-- Whoever schedules the type in parallel. -/
  scheduled : ∀ n executor, a.plan.Constructs g n b.job executor .scheduleParallel →
    List.Forall₂ (fun field f => f.owner.IsShared → field.IsReadOnly)
      (a.jobType b).fields b.job.declared ∧
    List.Forall₂ (fun f text => f.owner.IsShared → text = readOnlyLine f) b.job.declared texts
  /-- The lines stand in the text of the type, directly after the one that opens it. -/
  text : ∃ above below, rows (a.jobText b) = above ++ rows (a.jobType b).opening ++
    (texts.flatMap rows).map (shift a.unit.toList) ++ below
  shown : a.Shows a.depth (a.jobText b)

/-- The line of a field says whether it is read-only. -/
theorem line_jobField (hmutable : f.isMutable ↔ Writable g j.node f.owner) :
    FieldLine g j f (jobField j f).line := by
  have hline : (jobField j f).line =
      Declaration.inlineAttributes (jobField j f).attributes ++ writableLine f := by
    rw [← Declaration.Field.render_eq]
    simp [Declaration.Field.render, jobField, writableLine, String.append_assoc]
  rw [hline]
  by_cases h : j.discipline.isParallel ∧ ¬Writable g j.node f.owner
  · have hattributes : (jobField j f).attributes = ["Unity.Collections.ReadOnly"] := by
      rw [← hmutable] at h
      simp [jobField, h]
    have hmark : Declaration.inlineAttributes ["Unity.Collections.ReadOnly"] =
        "[Unity.Collections.ReadOnly] " := by decide +kernel
    rw [hattributes, hmark]
    exact .readOnly h
  · have hattributes : (jobField j f).attributes = [] := by
      rw [← hmutable] at h
      simpa [jobField] using h
    rw [hattributes]
    exact .writable h

/-- In every job type, what the job captures is read-only if the job runs in parallel. -/
theorem jobType_readOnlyCaptures (hg : g.Reachable) (ha : g.assemble options = .ok a)
    (hb : b ∈ a.draft.jobs) : ∃ texts, ReadOnlyCaptures g a b texts := by
  obtain ⟨-, hp, -⟩ := Graph.assemble_eq_ok ha
  have hj := ((Graph.emitted_draft ha).jobs b hb).job
  obtain ⟨c, -, hc, -⟩ := exists_furnished hg hp hj
  have hwritable : ∀ f ∈ b.job.declared, f.isMutable ↔ Writable g b.job.node f.owner := by
    intro f hf
    rw [hc.node]
    exact (hc.held f (List.mem_filter.1 hf).1).isMutable_iff
  have hreadOnly : ∀ f ∈ b.job.declared, (jobField b.job f).IsReadOnly ↔
      b.job.discipline.isParallel ∧ ¬Writable g b.job.node f.owner := by
    intro f hf
    rw [isReadOnly_jobField, hwritable f hf]
  have hfields : (a.jobType b).fields = b.job.declared.map (jobField b.job) := rfl
  refine ⟨(a.jobType b).fields.map Declaration.Field.line, hc.isParallel_iff, ?_, ?_,
    fun n executor hn => ?_, exists_rows_jobText a b, shows_jobText hb⟩
  · rw [hfields, List.forall₂_map_left_iff, List.forall₂_same]
    exact fun f hf => ⟨rfl, hreadOnly f hf⟩
  · rw [hfields, List.map_map, List.forall₂_map_right_iff, List.forall₂_same]
    exact fun f hf => line_jobField (hwritable f hf)
  · have hparallel := hc.isParallel_iff.2 (hn.runsParallel hg)
    rw [hfields, List.map_map, List.forall₂_map_left_iff, List.forall₂_map_right_iff,
      List.forall₂_same, List.forall₂_same]
    constructor
    · exact fun f hf hshared => (hreadOnly f hf).2 ⟨hparallel, not_writable_of_isShared hshared⟩
    · intro f hf hshared
      exact (line_jobField (hwritable f hf)).eq_readOnlyLine hparallel
        (not_writable_of_isShared hshared)

/-- The mutable variable and the command buffer are left writable; the other variable, the copied
member and the lookup are not. -/
theorem jobType_readOnlyCaptures_mixed : ∃ a, Mixed.graph.assemble {} = .ok a ∧ ∃ b ∈ a.draft.jobs,
    ∃ texts, ReadOnlyCaptures Mixed.graph a b texts ∧
    (a.jobType b).fields.map (fun field => (field.name, field.attributes)) =
      [("speed", []), ("limit", ["Unity.Collections.ReadOnly"]),
        ("count", ["Unity.Collections.ReadOnly"]), ("healthLookup", ["Unity.Collections.ReadOnly"]),
        ("ecb", [])] := by
  obtain ⟨a, ha, hany⟩ := exists_ok_of_any (x := Mixed.graph.assemble {})
    (c := fun a => a.draft.jobs.any fun b =>
      (a.jobType b).fields.map (fun field => (field.name, field.attributes)) =
      [("speed", []), ("limit", ["Unity.Collections.ReadOnly"]),
        ("count", ["Unity.Collections.ReadOnly"]), ("healthLookup", ["Unity.Collections.ReadOnly"]),
        ("ecb", [])]) (by decide +kernel)
  obtain ⟨b, hb, hfields⟩ := List.any_eq_true.1 hany
  obtain ⟨texts, htexts⟩ := jobType_readOnlyCaptures (Graph.reachable_build _ _) ha hb
  exact ⟨a, ha, b, hb, texts, htexts, of_decide_eq_true hfields⟩

end Assembly

end EntityFlow
