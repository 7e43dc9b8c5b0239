import EntityFlow.Proofs.Generation.Drafts
import EntityFlow.Proofs.Planning.Boundaries
import EntityFlow.Proofs.Unit.Source

/-!
# Comments that point back to nodes

Whether a unit is traced is asked in one place only, where the types of its jobs become text.  So a
graph compiled with and without tracing goes through the same assembly, and what remains is how the
comments around a type travel through the blocks that the type stands in: they are moved by as many
levels as the type is, and no other line notices.
-/

namespace EntityFlow

open Text

/-! ## Types inside a type -/

namespace Declaration

namespace TypeDecl

def ownSections (t : TypeDecl) (unit : String) : List String :=
  sections { t with nested := [] } unit

theorem sections_eq (t : TypeDecl) (unit : String) :
    t.sections unit = t.ownSections unit ++ t.nested := by
  simp [ownSections, sections]

/-- If comments are put around the nested types of a type, the type gets these comments, one level
deeper, and no other change. -/
theorem commented_render {α : Type} (t : TypeDecl) {unit : String} (hunit : '\n' ∉ unit.toList)
    {xs : List α} {plain traced : α → String} {stretch : α → Stretch}
    (hplain : ∀ x ∈ xs, pieces (plain x).toList = (stretch x).lines ∧ Ends (plain x).toList)
    (htraced : ∀ x ∈ xs, pieces (traced x).toList =
      [(stretch x).opening] ++ (stretch x).lines ++ [(stretch x).closing] ∧
      Ends (traced x).toList) :
    Commented (xs.map fun x => (stretch x).map (shift unit.toList))
      (pieces (render { t with nested := xs.map plain } unit).toList)
      (pieces (render { t with nested := xs.map traced } unit).toList) := by
  rcases List.eq_nil_or_concat xs with rfl | ⟨init, last, hxs⟩
  · exact .done _
  have hlast : last ∈ xs := by simp [hxs]
  have hbody : ∀ f : α → String,
      pieces ("\n\n".intercalate (t.ownSections unit ++ xs.map f)).toList =
      [[]].intercalate ((t.ownSections unit).map (fun s => pieces s.toList) ++
        xs.map fun x => pieces (f x).toList) := by
    intro f
    rw [pieces_sections (by simp [hxs]), List.map_append, List.map_map]
    rfl
  have hends : ∀ f : α → String, Ends (f last).toList →
      Ends ("\n\n".intercalate (t.ownSections unit ++ xs.map f)).toList :=
    fun f hf => hf.intercalate (by simp [hxs]) _
  have hcommented := Commented.sections ((t.ownSections unit).map fun s => pieces s.toList)
    (xs.map stretch)
  rw [List.map_map, List.map_map] at hcommented
  have hsections : Commented (xs.map stretch)
      (pieces ("\n\n".intercalate (t.ownSections unit ++ xs.map plain)).toList)
      (pieces ("\n\n".intercalate (t.ownSections unit ++ xs.map traced)).toList) := by
    rw [hbody, hbody, List.map_congr_left fun x hx => (hplain x hx).1,
      List.map_congr_left fun x hx => (htraced x hx).1]
    exact hcommented
  have hblock := hsections.block t.header hunit (hends plain (hplain last hlast).2)
    (hends traced (htraced last hlast).2)
  simp only [render, String.toList_append, pieces_attributeLines, sections_eq]
  rw [List.map_map] at hblock
  exact hblock.append_left _

end TypeDecl

end Declaration

/-! ## The source of a unit -/

namespace Assembly

variable (a : Assembly) (b : JobBody)

def withTracing (on : Bool) : Assembly :=
  { a with options := { a.options with traceability := on } }

def typeLines : List (List Char) :=
  (pieces ((a.jobType b).render a.unit).toList).map (shift a.unit.toList)^[a.depth]

/-- The type of a job in the source, with its comments as far to the right as its first line.
Carriage returns at the end of a node's name are lost, one for each block. -/
def tracedType : Stretch where
  opening := margin ((a.typeLines b).headD []) ++ dropReturn^[a.depth] (a.beginComment b).toList
  lines := a.typeLines b
  closing := margin ((a.typeLines b).headD []) ++ (endComment b).toList

def looseType : Stretch :=
  ⟨(a.beginComment b).toList, pieces ((a.jobType b).render a.unit).toList, (endComment b).toList⟩

theorem exists_block_cons {c : Char} {rest : List Char} {header : String}
    (h : header.toList = c :: rest) (body unit : String) :
    ∃ rest', (Text.block header body unit).toList = c :: rest' := by
  unfold Text.block
  split <;> simp [h]

/-- The type of a job starts with an attribute or with its modifiers. -/
theorem exists_render_jobType : ∃ c rest, ((a.jobType b).render a.unit).toList = c :: rest ∧
    (c = '[' ∨ c = 'p') := by
  obtain ⟨rest, hheader⟩ : ∃ rest, (a.jobType b).header.toList = 'p' :: rest := by
    cases hcontract : b.job.contract <;>
      exact ⟨_, by simp [Declaration.TypeDecl.header, jobType, hcontract]; rfl⟩
  unfold Declaration.TypeDecl.render
  cases (a.jobType b).attributes with
  | nil =>
    obtain ⟨rest', hblock⟩ := exists_block_cons hheader
      ("\n\n".intercalate ((a.jobType b).sections a.unit)) a.unit
    exact ⟨'p', rest', by simp [Declaration.attributeLines, hblock], .inr rfl⟩
  | cons word rest' =>
    exact ⟨'[', _, by simp [Declaration.attributeLines, String.join_cons]; rfl, .inl rfl⟩

/-- The first line of the type stands where its blocks put it. -/
theorem margin_typeLines : margin ((a.typeLines b).headD []) =
    (List.replicate a.depth a.unit.toList).flatten := by
  obtain ⟨c, rest, htext, hc⟩ := a.exists_render_jobType b
  have hfirst : c ≠ '\n' ∧ c ≠ '\r' ∧ c ≠ ' ' := by rcases hc with rfl | rfl <;> decide
  obtain ⟨line, more, hpieces⟩ := exists_pieces_cons hfirst.1 rest
  rw [typeLines, htext, hpieces, List.map_cons, List.headD_cons]
  exact margin_iterate_shift hfirst.2.1 hfirst.2.2 (fun d hd => a.mem_unit hd) line a.depth

theorem iterate_dropReturn_endComment (b : JobBody) (n : ℕ) :
    dropReturn^[n] (endComment b).toList = (endComment b).toList := by
  refine Function.iterate_fixed ?_ n
  have hlast : (endComment b).toList =
      ("// node " ++ toString b.job.node ++ " en").toList ++ ['d'] := by
    simp [endComment]
  rw [hlast, dropReturn_concat _ (by decide)]

/-- A traced type in the source is the one alone, moved to its depth. -/
theorem tracedType_eq : a.tracedType b = (a.looseType b).map (shift a.unit.toList)^[a.depth] := by
  obtain ⟨rest, hbegin⟩ : ∃ rest, (a.beginComment b).toList = '/' :: rest :=
    ⟨_, by simp [beginComment]; rfl⟩
  obtain ⟨rest', hend⟩ : ∃ rest, (endComment b).toList = '/' :: rest :=
    ⟨_, by simp [endComment]; rfl⟩
  have hopening : (shift a.unit.toList)^[a.depth] (a.beginComment b).toList =
      margin ((a.typeLines b).headD []) ++ dropReturn^[a.depth] (a.beginComment b).toList := by
    rw [margin_typeLines, hbegin, iterate_shift (by decide)]
  have hclosing : (shift a.unit.toList)^[a.depth] (endComment b).toList =
      margin ((a.typeLines b).headD []) ++ (endComment b).toList := by
    rw [margin_typeLines, hend, iterate_shift (by decide), ← hend, iterate_dropReturn_endComment]
  simp only [tracedType, Stretch.map, looseType, hopening, hclosing]
  rfl

theorem feed_not_mem_node (n : NodeId) : '\n' ∉ (toString n).toList := by
  intro h
  have hdigits : (toString n).toList = Nat.toDigits 10 n.index := by
    change (toString n.index).toList = _
    rw [Nat.toString_eq_ofList_toDigits, String.toList_ofList]
  rw [hdigits] at h
  exact absurd (Nat.isDigit_of_mem_toDigits (by decide) (by decide) h) (by decide)

variable {a b}

/-- With tracing, the lines of a job are those of its type between two comments. -/
theorem pieces_jobText_traced (htitle : '\n' ∉ (a.title b).toList) :
    pieces ((a.withTracing true).jobText b).toList =
      [(a.looseType b).opening] ++ (a.looseType b).lines ++ [(a.looseType b).closing] := by
  have hbegin : '\n' ∉ (a.beginComment b).toList := by
    simp [beginComment, htitle, feed_not_mem_node]
  have hend : '\n' ∉ (endComment b).toList := by
    simp [endComment, feed_not_mem_node]
  have htext : ((a.withTracing true).jobText b).toList = (a.beginComment b).toList ++
      '\n' :: (((a.jobType b).render a.unit).toList ++ '\n' :: (endComment b).toList) := by
    have htraced : (a.withTracing true).jobText b = a.beginComment b ++ "\n" ++
        (a.jobType b).render a.unit ++ "\n" ++ endComment b :=
      (a.withTracing true).jobText_of_traced b rfl
    rw [htraced]
    simp
  rw [htext, pieces_append_feed, pieces_append_feed, pieces_eq_singleton hbegin,
    pieces_eq_singleton hend, List.append_assoc]
  rfl

/-- Tracing adds two comments to each nested type, and nothing else to the declaration. -/
theorem commented_declaration (hnames : ∀ b ∈ a.draft.jobs, '\n' ∉ (a.title b).toList) :
    Commented (a.draft.jobs.map fun b => (a.looseType b).map (shift a.unit.toList))
      (pieces ((a.withTracing false).declaration.render a.unit).toList)
      (pieces ((a.withTracing true).declaration.render a.unit).toList) :=
  a.declaration.commented_render a.feed_not_mem_unit
    (fun b _ => ⟨rfl, (a.jobType b).ends_render a.unit⟩)
    (fun b hb => ⟨pieces_jobText_traced (hnames b hb), (a.withTracing true).ends_jobText b⟩)

/-- What stands around the declaration does not depend on tracing. -/
theorem commented_source (hnames : ∀ b ∈ a.draft.jobs, '\n' ∉ (a.title b).toList) :
    Commented (a.draft.jobs.map a.tracedType) (pieces (a.withTracing false).source.toList)
      (pieces (a.withTracing true).source.toList) := by
  have htypes : a.draft.jobs.map a.tracedType = (a.draft.jobs.map fun b =>
      (a.looseType b).map (shift a.unit.toList)).map
        (Stretch.map (shift a.unit.toList)^[a.level]) := by
    rw [List.map_map]
    refine List.map_congr_left fun b _ => ?_
    rw [a.tracedType_eq b, Function.comp_apply, Stretch.map_map, depth, Function.iterate_succ]
  have hmoved := (commented_declaration hnames).map (shift a.unit.toList)^[a.level]
  rw [← htypes] at hmoved
  have hsource : ∀ on, pieces (a.withTracing on).source.toList = a.front ++
      (pieces ((a.withTracing on).declaration.render a.unit).toList).map
        (shift a.unit.toList)^[a.level] ++ a.back := fun on => (a.withTracing on).rows_source_eq
  rw [hsource, hsource]
  exact (hmoved.append_left a.front).append_right a.back

end Assembly

/-! ## Both compilations -/

namespace Graph

/-- Tracing shows in the options of the assembly alone. -/
theorem assemble_traceability (g : Graph) (o : Options) (on : Bool) :
    g.assemble { o with traceability := on } = (g.assemble o).map (·.withTracing on) := by
  unfold assemble
  cases Plan.make g with
  | error e => rfl
  | ok p =>
    simp only [bind, Except.bind]
    rcases (Draft.generate g p).run.run (.ofPlan p) with ⟨e | draft, ledger⟩ <;> rfl

/-- Tracing decides neither whether a graph compiles nor what is reported, and it adds two comments
to each type of a job in the source, directly before and directly after it. -/
theorem compile_traceability {g : Graph} (hg : g.Reachable)
    (hnames : ∀ n ∈ g.nodesWith .boundary, ∀ node ∈ g.node? n, '\n' ∉ node.name.toList)
    (o : Options) :
    (∃ e, g.compile { o with traceability := true } = .error e ∧
      g.compile { o with traceability := false } = .error e) ∨
    ∃ a traced plain, g.assemble { o with traceability := false } = .ok a ∧
      g.compile { o with traceability := true } = .ok traced ∧
      g.compile { o with traceability := false } = .ok plain ∧
      traced.name = plain.name ∧ traced.diagnostics = plain.diagnostics ∧
      a.declaration.nested = a.draft.jobs.map (fun b => (a.jobType b).render a.unit) ∧
      Commented (a.draft.jobs.map a.tracedType) (pieces plain.source.toList)
        (pieces traced.source.toList) := by
  rw [compile_eq, compile_eq]
  split
  · exact .inl ⟨_, rfl, rfl⟩
  rw [assemble_traceability g o true, assemble_traceability g o false]
  cases hassembled : g.assemble o with
  | error e => exact .inl ⟨e, rfl, rfl⟩
  | ok a =>
    refine .inr ⟨a.withTracing false, _, _, rfl, rfl, rfl, rfl, rfl, rfl, ?_⟩
    refine Assembly.commented_source (a := a) fun b hb => ?_
    obtain ⟨rfl, hp, -⟩ := assemble_eq_ok hassembled
    have hjob : b.job.node ∈ a.plan.jobs.map Job.node :=
      List.mem_map_of_mem ((emitted_draft hassembled).jobs b hb).job
    rw [(Planning.surveyed_make hg hp).2] at hjob
    unfold Assembly.title
    cases hn : a.graph.node? b.job.node with
    | none => exact List.not_mem_nil
    | some node => exact hnames _ (List.mem_filter.1 hjob).1 node hn

/-- A job in a namespace, so two blocks deep. -/
def Spaced.graph : Graph := Graph.build { namespaceName := some "Game" } Planning.Mixed.steps

/-- A job in a namespace, with and without comments. -/
theorem compile_traceability_spaced : ∃ a traced plain,
    Spaced.graph.assemble { traceability := false } = .ok a ∧
    Spaced.graph.compile {} = .ok traced ∧
    Spaced.graph.compile { traceability := false } = .ok plain ∧
    traced.diagnostics = plain.diagnostics ∧ a.depth = 2 ∧
    a.draft.jobs.map a.beginComment = ["// node 1 begin: Move"] ∧
    Commented (a.draft.jobs.map a.tracedType) (pieces plain.source.toList)
      (pieces traced.source.toList) := by
  obtain ⟨a, ha, hcomments⟩ :=
    exists_ok_of_any (x := Spaced.graph.assemble { traceability := false })
    (c := fun a => a.depth = 2 ∧ a.draft.jobs.map a.beginComment = ["// node 1 begin: Move"])
    (by decide +kernel)
  obtain ⟨hdepth, hcomments⟩ := of_decide_eq_true hcomments
  rcases compile_traceability (reachable_build _ _) (g := Spaced.graph) (by decide +kernel) {} with
    ⟨e, -, he⟩ | ⟨a', traced, plain, ha', htraced, hplain, -, hsame, -, hcommented⟩
  · rw [compile_eq, ha] at he
    cases he
  · obtain rfl := Except.ok.inj (ha.symm.trans ha')
    exact ⟨a, traced, plain, ha, htraced, hplain, hsame, hdepth, hcomments, hcommented⟩

end Graph

end EntityFlow
