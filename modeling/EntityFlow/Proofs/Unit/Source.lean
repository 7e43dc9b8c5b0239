import EntityFlow.Compile.Unit
import EntityFlow.Proofs.Text.Lines

/-!
# The source of a unit, line by line

A declaration is one line of words: its attributes, modifiers, type and name.  A type opens with
such a line, and then come its fields, its properties, its methods and the types inside it.
`TypeDecl.rows` lists the lines of a type in this order, and `TypeDecl.rows_render` says that the
text of the type has these lines and no others; `Assembly.rows_source` says the same of the source
of a unit.  Any of the words may hold line feeds of its own: a text of several lines is moved by one
level as a whole.
-/

namespace EntityFlow

open Text

/-! ## Declarations as words -/

namespace Declaration

def bracket (word : String) : String := "[" ++ word ++ "]"

/-- Attributes before other words of a line. -/
theorem inlineAttributes_append {words : List String} (hne : words ≠ [])
    (attributes : List String) : inlineAttributes attributes ++ " ".intercalate words =
      " ".intercalate (attributes.map bracket ++ words) := by
  induction attributes with
  | nil => simp [inlineAttributes]
  | cons x rest ih =>
    have hrest : rest.map bracket ++ words ≠ [] := List.append_ne_nil_of_right_ne_nil _ hne
    obtain ⟨word, more, hwords⟩ := List.exists_cons_of_ne_nil hrest
    rw [List.map_cons, List.cons_append, hwords, String.intercalate_cons_cons, ← hwords, ← ih]
    simp [inlineAttributes, bracket, String.join_cons, String.append_assoc]

def PassMode.words : PassMode → List String
  | .byValue => []
  | .byIn => ["in"]
  | .byRef => ["ref"]
  | .byOut => ["out"]

def Param.words (x : Param) : String :=
  " ".intercalate (x.attributes.map bracket ++ (PassMode.words x.mode ++ [x.type, x.name]))

theorem Param.render_eq (x : Param) : x.render = x.words := by
  rw [Param.words, ← inlineAttributes_append (by simp), render]
  cases x.mode <;> simp [PassMode.word, PassMode.words, String.append_assoc]

def Field.line (f : Field) : String :=
  " ".intercalate (f.attributes.map bracket ++ [f.modifiers, f.type, f.name] ++
    f.value.toList.flatMap fun value => ["=", value]) ++ ";"

theorem Field.render_eq (f : Field) : f.render = f.line := by
  rw [Field.line, List.append_assoc, ← inlineAttributes_append (by simp), render,
    ← String.toList_inj]
  cases f.value <;> simp

def Property.line (p : Property) : String :=
  " ".intercalate [p.modifiers, p.type, p.name, p.accessors.render]

theorem Property.render_eq (p : Property) : p.render = p.line := by
  simp [Property.line, render, String.append_assoc]

def Method.opening (m : Method) : String :=
  " ".intercalate [m.modifiers, m.returns,
    m.name ++ "(" ++ ", ".intercalate (m.params.map Param.words) ++ ")", "\x7b"]

theorem Method.signature_append (m : Method) : m.signature ++ " \x7b" = m.opening := by
  have hparams : m.params.map Param.render = m.params.map Param.words :=
    List.map_congr_left fun x _ => x.render_eq
  simp [Method.opening, signature, Code.commaList, hparams, String.append_assoc]

def TypeDecl.opening (t : TypeDecl) : String :=
  " ".intercalate ([t.modifiers, t.sort.keyword, t.name] ++
    (if t.bases.isEmpty then [] else [":", ", ".intercalate t.bases]) ++ ["\x7b"])

theorem TypeDecl.header_append (t : TypeDecl) : t.header ++ " \x7b" = t.opening := by
  rw [← String.toList_inj, TypeDecl.opening, header]
  split <;> simp [Code.commaList]

/-! ## Lines of types -/

/-- Attributes on lines of their own, the line that opens a block, what is inside and the brace that
closes it. -/
def blockRows (attributes : List String) (opening : String) (inner : List (List Char)) :
    List (List Char) :=
  attributes.flatMap (fun x => rows (bracket x)) ++ rows opening ++ inner ++ [['\x7d']]

/-- Attributes end their lines, so what follows them keeps its own. -/
theorem pieces_attributeLines (attributes : List String) (text : List Char) :
    pieces ((attributeLines attributes).toList ++ text) =
      attributes.flatMap (fun x => rows (bracket x)) ++ pieces text := by
  induction attributes with
  | nil => simp [attributeLines]
  | cons a rest ih =>
    have hsplit : (attributeLines (a :: rest)).toList ++ text =
        (bracket a).toList ++ '\n' :: ((attributeLines rest).toList ++ text) := by
      simp [attributeLines, bracket, String.join_cons]
    rw [hsplit, pieces_append_feed, ih, List.flatMap_cons, List.append_assoc]
    rfl

/-- A method opens with its signature, and the lines of its body are one level deeper. -/
def Method.rows (unit : List Char) (m : Method) : List (List Char) :=
  blockRows m.attributes m.opening ((lines m.body.toList).map (put unit))

/-- The lines of a method are its attributes, its signature, its body one level deeper, and a
brace. -/
theorem Method.rows_render {unit : String} (hunit : '\n' ∉ unit.toList) (m : Method) :
    Text.rows (m.render unit) = m.rows unit.toList := by
  have hopening : m.signature.toList ++ [' ', '\x7b'] = m.opening.toList := by
    rw [← m.signature_append]
    simp
  rw [Text.rows, render, String.toList_append, pieces_attributeLines, pieces_block_lines _ _ hunit,
    hopening, Method.rows, blockRows]
  simp only [List.append_assoc]
  rfl

/-- Texts on consecutive lines, as one section if there are any. -/
def group (texts : List String) : List (List (List Char)) :=
  if texts.isEmpty then [] else [texts.flatMap rows]

theorem ends_accessors (x : Accessors) : Ends x.render.toList := by
  cases x with
  | auto => exact ⟨_, '\x7d', List.dropLast_append_getLast? _ rfl |>.symm, by decide, by decide⟩
  | backed field readOnly =>
    cases readOnly <;> rw [Accessors.render, String.toList_append] <;>
      exact Ends.append_left ⟨_, '\x7d', List.dropLast_append_getLast? _ rfl |>.symm, by decide,
        by decide⟩ _

namespace TypeDecl

/-- The lines of a type: fields, properties, methods and nested types are sections one level deeper,
with an empty line between them. -/
def rows (t : TypeDecl) (unit : List Char) : List (List Char) :=
  blockRows t.attributes t.opening <| .map (shift unit) <| [[]].intercalate <|
    group (t.fields.map Field.line) ++ group (t.properties.map Property.line) ++
      t.methods.map (Method.rows unit) ++ t.nested.map Text.rows

/-- The text of a type ends with its brace. -/
theorem ends_render (t : TypeDecl) (unit : String) : Ends (t.render unit).toList := by
  rw [render, String.toList_append]
  exact (ends_block _ _ _).append_left _

/-- No part of a type ends in an empty line. -/
theorem ends_sections {t : TypeDecl} {unit text : String} (hnested : ∀ x ∈ t.nested, Ends x.toList)
    (h : text ∈ t.sections unit) : Ends text.toList := by
  have hgroup : ∀ {α : Type} (render : α → String), (∀ x, Ends (render x).toList) → ∀ xs : List α,
      text ∈ (if xs.isEmpty then [] else ["\n".intercalate (xs.map render)]) →
      Ends text.toList := by
    intro α render hrender xs hmem
    rcases List.eq_nil_or_concat xs with rfl | ⟨init, last, rfl⟩
    · exact absurd hmem List.not_mem_nil
    · obtain rfl : text = "\n".intercalate ((init ++ [last]).map render) := by simpa using hmem
      exact (hrender last).intercalate (by simp) _
  simp only [sections, List.mem_append] at h
  rcases h with ((h | h) | h) | h
  · refine hgroup Field.render (fun f => ?_) t.fields h
    rw [Field.render, String.toList_append]
    exact Ends.append_left ⟨[], ';', rfl, by decide, by decide⟩ _
  · refine hgroup Property.render (fun p => ?_) t.properties h
    rw [Property.render, String.toList_append]
    exact (ends_accessors p.accessors).append_left _
  · obtain ⟨m, -, rfl⟩ := List.mem_map.1 h
    rw [Method.render, String.toList_append]
    exact (ends_block _ _ _).append_left _
  · exact hnested text h

/-- The parts of a type, line by line. -/
theorem map_rows_sections {unit : String} (hunit : '\n' ∉ unit.toList) (t : TypeDecl) :
    (t.sections unit).map Text.rows =
      group (t.fields.map Field.line) ++ group (t.properties.map Property.line) ++
        t.methods.map (Method.rows unit.toList) ++ t.nested.map Text.rows := by
  have hgroup : ∀ {α : Type} (render line : α → String), (∀ x, render x = line x) → ∀ xs : List α,
      (if xs.isEmpty then [] else ["\n".intercalate (xs.map render)]).map Text.rows =
        group (xs.map line) := by
    intro α render line heq xs
    obtain rfl : render = line := funext heq
    unfold group
    cases xs with
    | nil => rfl
    | cons x rest => simp [rows_intercalate]
  rw [sections, List.map_append, List.map_append, List.map_append,
    hgroup Field.render Field.line Field.render_eq, hgroup Property.render _ Property.render_eq,
    List.map_map]
  congr 2
  exact List.map_congr_left fun m _ => Method.rows_render hunit m

/-- The text of a type has the lines of the type and no others. -/
theorem rows_render {unit : String} (hunit : '\n' ∉ unit.toList) {t : TypeDecl}
    (hnested : ∀ x ∈ t.nested, Ends x.toList) : Text.rows (t.render unit) = t.rows unit.toList := by
  have hopening : t.header.toList ++ [' ', '\x7b'] = t.opening.toList := by
    rw [← t.header_append]
    simp
  have hinner : (lines ("\n\n".intercalate (t.sections unit)).toList).map (put unit.toList) =
      ([[]].intercalate ((t.sections unit).map Text.rows)).map (shift unit.toList) := by
    rcases List.eq_nil_or_concat (t.sections unit) with hnil | ⟨init, last, hlast⟩
    · rw [hnil]
      rfl
    · have hmem : last ∈ t.sections unit := by simp [hlast]
      have hends : Ends ("\n\n".intercalate (t.sections unit)).toList :=
        (ends_sections hnested hmem).intercalate (by simp [hlast]) _
      rw [map_put_lines _ hends, pieces_sections (by simp [hlast])]
      rfl
  rw [Text.rows, render, String.toList_append, pieces_attributeLines, pieces_block_lines _ _ hunit,
    hopening, hinner, map_rows_sections hunit, rows, blockRows]
  simp only [List.append_assoc]
  rfl

/-- The opening of a type is among its lines. -/
theorem opening_infix_rows (t : TypeDecl) (unit : List Char) :
    Text.rows t.opening <:+: t.rows unit := by
  rw [rows, blockRows, List.append_assoc (_ ++ _)]
  exact ⟨_, _, rfl⟩

/-- Every section is found in the lines of the type. -/
theorem section_infix_rows {t : TypeDecl} {unit : List Char} {part : List (List Char)}
    (h : part ∈ group (t.fields.map Field.line) ++ group (t.properties.map Property.line) ++
      t.methods.map (Method.rows unit) ++ t.nested.map Text.rows) :
    part.map (shift unit) <:+: t.rows unit :=
  ((infix_intercalate [[]] h).map (shift unit)).trans ⟨_, _, rfl⟩

theorem exists_intercalate_group (texts : List String) (more : List (List (List Char))) :
    ∃ rest, [[]].intercalate (group texts ++ more) = texts.flatMap Text.rows ++ rest := by
  unfold group
  cases texts with
  | nil => exact ⟨_, rfl⟩
  | cons text texts => exact ⟨_, intercalate_cons _ _ _⟩

/-- The fields come first. -/
theorem exists_rows_eq (t : TypeDecl) (unit : List Char) : ∃ below, t.rows unit =
    t.attributes.flatMap (fun x => Text.rows (bracket x)) ++ Text.rows t.opening ++
      ((t.fields.map Field.line).flatMap Text.rows).map (shift unit) ++ below := by
  obtain ⟨rest, hrest⟩ := exists_intercalate_group (t.fields.map Field.line)
    (group (t.properties.map Property.line) ++ t.methods.map (Method.rows unit) ++
      t.nested.map Text.rows)
  refine ⟨rest.map (shift unit) ++ [['\x7d']], ?_⟩
  rw [rows, blockRows, List.append_assoc (group _), List.append_assoc (group _), hrest,
    List.map_append]
  simp only [List.append_assoc]

/-- A nested type stands in the type, one level deeper. -/
theorem nested_infix_rows {t : TypeDecl} {text : String} (h : text ∈ t.nested) (unit : List Char) :
    (Text.rows text).map (shift unit) <:+: t.rows unit :=
  section_infix_rows (List.mem_append_right _ (List.mem_map_of_mem h))

end TypeDecl

end Declaration

/-! ## The source of a unit -/

namespace Assembly

variable (a : Assembly) (b : JobBody)

theorem mem_unit {c : Char} (hc : c ∈ a.unit.toList) : c = ' ' := by
  rw [unit, String.toList_ofList] at hc
  exact List.eq_of_mem_replicate hc

theorem feed_not_mem_unit : '\n' ∉ a.unit.toList := by
  intro h
  exact absurd (a.mem_unit h) (by decide)

def level : ℕ := if a.settings.namespaceName.isSome then 1 else 0

def depth : ℕ := a.level + 1

def front : List (List Char) :=
  (if a.plan.usings.isEmpty then []
    else a.plan.usings.flatMap (fun u => rows ("using " ++ u ++ ";")) ++ [[]]) ++
  a.settings.namespaceName.toList.flatMap fun name => rows ("namespace " ++ name ++ " \x7b")

def back : List (List Char) := (a.settings.namespaceName.toList.map fun _ => ['\x7d']) ++ [[]]

/-- The lines of a declaration: its namespace, the type, and the braces. -/
theorem pieces_declarationText : pieces a.declarationText.toList ++ [[]] =
    (a.settings.namespaceName.toList.flatMap fun name => rows ("namespace " ++ name ++ " \x7b")) ++
      (rows (a.declaration.render a.unit)).map (shift a.unit.toList)^[a.level] ++ a.back := by
  cases h : a.settings.namespaceName with
  | none => simp [declarationText, level, back, h, rows]
  | some name =>
    simp only [declarationText, level, back, h, pieces_block a.feed_not_mem_unit
      (Declaration.TypeDecl.ends_render _ _), rows]
    simp

/-- The lines of the source around those of the type of the unit. -/
theorem rows_source_eq : rows a.source = a.front ++
    (rows (a.declaration.render a.unit)).map (shift a.unit.toList)^[a.level] ++ a.back := by
  have husings : a.plan.usings.isEmpty = false →
      rows ("\n".intercalate (a.plan.usings.map fun u => "using " ++ u ++ ";")) =
        a.plan.usings.flatMap fun u => rows ("using " ++ u ++ ";") := by
    intro h
    rw [rows_intercalate (by simpa using h), List.flatMap_map]
  rw [front, List.append_assoc, List.append_assoc, ← List.append_assoc (List.flatMap _ _),
    ← pieces_declarationText]
  cases h : a.plan.usings.isEmpty with
  | true =>
    have htext : a.source.toList = a.declarationText.toList ++ '\n' :: [] := by
      simp [source, List.isEmpty_iff.1 h]
    rw [rows, htext, pieces_append_feed]
    rfl
  | false =>
    have htext : a.source.toList =
        ("\n".intercalate (a.plan.usings.map fun u => "using " ++ u ++ ";")).toList ++
          '\n' :: ([] ++ '\n' :: (a.declarationText.toList ++ '\n' :: [])) := by
      simp [source, h]
    rw [rows, htext, pieces_append_feed, pieces_append_feed, pieces_append_feed]
    change rows _ ++ _ = _
    rw [husings h]
    simp [pieces]

/-! ## The types of jobs in it -/

def title : String := ((a.graph.node? b.job.node).map Node.name).getD ""

def beginComment : String := "// node " ++ toString b.job.node ++ " begin: " ++ a.title b

def endComment (b : JobBody) : String := "// node " ++ toString b.job.node ++ " end"

/-- With tracing, the text of a job stands between two comments. -/
theorem jobText_of_traced (h : a.options.traceability = true) : a.jobText b =
    a.beginComment b ++ "\n" ++ (a.jobType b).render a.unit ++ "\n" ++ endComment b := by
  rw [jobText, if_pos h, ← String.toList_inj]
  simp [Code.traced, beginComment, endComment, title]

/-- Without tracing, the text of a job is that of its type. -/
theorem jobText_of_not_traced (h : ¬a.options.traceability = true) :
    a.jobText b = (a.jobType b).render a.unit := by
  rw [jobText, if_neg h]

/-- The text of a job's type ends in a brace or in a comment. -/
theorem ends_jobText : Ends (a.jobText b).toList := by
  by_cases h : a.options.traceability = true
  · have hend : Ends (endComment b).toList := by
      rw [endComment, String.toList_append]
      exact Ends.append_left ⟨[' ', 'e', 'n'], 'd', rfl, by decide, by decide⟩ _
    rw [a.jobText_of_traced b h, String.toList_append]
    exact hend.append_left _
  · rw [a.jobText_of_not_traced b h]
    exact (a.jobType b).ends_render a.unit

/-- The text of a job's type: the lines of the type, between comments if the unit is traced. -/
theorem rows_jobText : rows (a.jobText b) =
    (if a.options.traceability then rows (a.beginComment b) else []) ++
      (a.jobType b).rows a.unit.toList ++
      (if a.options.traceability then rows (endComment b) else []) := by
  have hrender : rows ((a.jobType b).render a.unit) = (a.jobType b).rows a.unit.toList :=
    Declaration.TypeDecl.rows_render a.feed_not_mem_unit nofun
  split
  · rename_i h
    have htext : (a.jobText b).toList = (a.beginComment b).toList ++
        '\n' :: (((a.jobType b).render a.unit).toList ++ '\n' :: (endComment b).toList) := by
      rw [a.jobText_of_traced b h]
      simp
    rw [rows, htext, pieces_append_feed, pieces_append_feed, ← hrender, List.append_assoc]
    rfl
  · rename_i h
    rw [a.jobText_of_not_traced b h, hrender, List.nil_append, List.append_nil]

/-- The source has the lines of the unit's type, with some before and some after them. -/
theorem rows_source : rows a.source = a.front ++
    (a.declaration.rows a.unit.toList).map (shift a.unit.toList)^[a.level] ++ a.back := by
  rw [rows_source_eq, Declaration.TypeDecl.rows_render a.feed_not_mem_unit fun x hx => ?_]
  obtain ⟨b, -, rfl⟩ := List.mem_map.1 hx
  exact a.ends_jobText b

/-- The text stands in the source, so many levels deep. -/
def Shows (level : ℕ) (text : String) : Prop :=
  (rows text).map (shift a.unit.toList)^[level] <:+: rows a.source

variable {a b}

/-- The source shows the text of every job, at the depth of nested types. -/
theorem shows_jobText (hb : b ∈ a.draft.jobs) : a.Shows a.depth (a.jobText b) := by
  have hnested : a.jobText b ∈ a.declaration.nested := List.mem_map_of_mem hb
  have hfound := (Declaration.TypeDecl.nested_infix_rows hnested a.unit.toList).map
    (shift a.unit.toList)^[a.level]
  rw [List.map_map] at hfound
  exact hfound.trans ⟨a.front, a.back, a.rows_source.symm⟩

/-- What stands in the type of a job stands in its text. -/
theorem infix_jobText {part : List (List Char)} (h : part <:+: (a.jobType b).rows a.unit.toList) :
    part <:+: rows (a.jobText b) := by
  rw [rows_jobText]
  exact h.trans ⟨_, _, rfl⟩

/-- The source shows the opening of the type of every job. -/
theorem shows_opening (hb : b ∈ a.draft.jobs) : a.Shows a.depth (a.jobType b).opening :=
  ((infix_jobText ((a.jobType b).opening_infix_rows a.unit.toList)).map _).trans (shows_jobText hb)

end Assembly

end EntityFlow
