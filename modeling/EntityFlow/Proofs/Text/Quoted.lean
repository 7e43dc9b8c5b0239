import EntityFlow.Proofs.Text.Lines
import EntityFlow.TypeRef

/-!
# String literals

A string is written character by character, and reading takes apart what was written for one
character at a time.  No line feed is written, so a literal lies within one line wherever it stands,
and moving lines to the right moves it as a whole.
-/

namespace EntityFlow.Text

/-! ## Stretches within one line -/

/-- What follows a text does not change its lines but the last. -/
theorem exists_pieces_before (before : List Char) : ∃ front x, '\n' ∉ x ∧
    ∀ text, pieces (before ++ text) = front ++ pieces (x ++ text) := by
  induction before with
  | nil => exact ⟨[], [], List.not_mem_nil, fun _ => rfl⟩
  | cons c before ih =>
    obtain ⟨front, x, hx, h⟩ := ih
    by_cases hc : c = '\n'
    · refine ⟨[] :: front, x, hx, fun text => ?_⟩
      rw [List.cons_append, pieces, if_pos hc, h, List.cons_append]
    · cases front with
      | nil =>
        refine ⟨[], c :: x, by simp [hx, Ne.symm hc], fun text => ?_⟩
        rw [List.cons_append, pieces, h, List.nil_append, List.nil_append, List.cons_append, pieces]
      | cons line front =>
        refine ⟨(c :: line) :: front, x, hx, fun text => ?_⟩
        rw [List.cons_append, pieces, if_neg hc, h, List.cons_append]
        rfl

/-- A stretch without line feeds belongs to the first line of what follows. -/
theorem pieces_append_of_not_mem {w after y : List Char} {rest : List (List Char)}
    (hafter : pieces after = y :: rest) (hw : '\n' ∉ w) :
    pieces (w ++ after) = (w ++ y) :: rest := by
  induction w with
  | nil => exact hafter
  | cons c w ih =>
    rw [List.mem_cons, not_or] at hw
    rw [List.cons_append, pieces, if_neg (Ne.symm hw.1), ih hw.2]
    rfl

theorem dropReturn_append_of_ends {w : List Char} (h : Ends w) (y : List Char) :
    dropReturn (w ++ y) = w ++ dropReturn y := by
  cases y with
  | nil =>
    obtain ⟨init, c, rfl, -, hc⟩ := h
    rw [List.append_nil, dropReturn_concat init hc]
    exact (List.append_nil _).symm
  | cons d y => exact dropReturn_append w (List.cons_ne_nil d y)

/-- Lines around a stretch that lies within one of them. -/
theorem exists_lines_around (before after : List Char) :
    ∃ front x y rest, ∀ w, '\n' ∉ w → Ends w →
      lines (before ++ (w ++ after)) = front ++ (x ++ w ++ y) :: rest := by
  obtain ⟨front, x, hx, hbefore⟩ := exists_pieces_before before
  obtain ⟨y, more, hafter⟩ := List.exists_cons_of_ne_nil (pieces_ne_nil after)
  have hpieces : ∀ w, '\n' ∉ w →
      pieces (before ++ (w ++ after)) = front ++ (x ++ w ++ y) :: more := by
    intro w hw
    rw [hbefore, ← List.append_assoc, pieces_append_of_not_mem hafter (by simp [hx, hw])]
  rcases List.eq_nil_or_concat' more with rfl | ⟨mid, last, rfl⟩
  · refine ⟨front.map dropReturn, x, y, [], fun w hw hends => ?_⟩
    rw [lines_of_pieces (hpieces w hw)]
    simp [hends.ne_nil]
  · refine ⟨front.map dropReturn, x, dropReturn y,
      mid.map dropReturn ++ (if last.isEmpty then [] else [last]), fun w hw hends => ?_⟩
    have hall : pieces (before ++ (w ++ after)) = (front ++ (x ++ w ++ y) :: mid) ++ [last] := by
      simp [hpieces w hw]
    rw [lines_of_pieces hall, List.map_append, List.map_cons,
      dropReturn_append_of_ends (hends.append_left x), List.append_assoc, List.cons_append]

theorem intercalate_append_cons {α : Type*} (sep : List α) (front : List (List α)) (line : List α)
    (rest : List (List α)) : sep.intercalate (front ++ line :: rest) =
      front.flatMap (· ++ sep) ++ (line ++ rest.flatMap (sep ++ ·)) := by
  induction front with
  | nil => exact intercalate_cons sep line rest
  | cons a front ih =>
    obtain ⟨b, more, hmore⟩ := List.exists_cons_of_ne_nil
      (List.append_ne_nil_of_right_ne_nil front (List.cons_ne_nil line rest))
    rw [List.cons_append, hmore, List.intercalate_cons_cons, ← hmore, ih, List.flatMap_cons,
      List.append_assoc (a ++ sep)]

/-- Indentation does not reach into a stretch that lies within one line: what it puts before and
after is the same for all of them. -/
theorem exists_indent_around (unit before after : String) :
    ∃ before' after', ∀ w : String, '\n' ∉ w.toList → Ends w.toList →
      indent (before ++ w ++ after) unit = before' ++ w ++ after' := by
  obtain ⟨front, x, y, rest, hlines⟩ := exists_lines_around before.toList after.toList
  let pad (line : List Char) : List Char := if line.isEmpty then [] else unit.toList ++ line
  refine ⟨String.ofList ((front.map pad).flatMap (· ++ ['\n']) ++ (unit.toList ++ x)),
    String.ofList (y ++ (rest.map pad).flatMap (['\n'] ++ ·)), fun w hw hends => ?_⟩
  have hpad : pad (x ++ w.toList ++ y) = unit.toList ++ (x ++ w.toList ++ y) := by
    simp [pad, hends.ne_nil]
  have htext : (indent (before ++ w ++ after) unit).toList =
      ['\n'].intercalate ((lines (before ++ w ++ after).toList).map pad) := by
    rw [indent, String.toList_intercalate, List.map_map]
    congr 1
    refine List.map_congr_left fun line _ => ?_
    simp only [Function.comp_apply, pad]
    split <;> simp
  have hjoined : (before ++ w ++ after).toList = before.toList ++ (w.toList ++ after.toList) := by
    simp
  rw [← String.toList_inj, htext, hjoined, hlines w.toList hw hends, List.map_append, List.map_cons,
    hpad, intercalate_append_cons]
  simp

/-- Text that was indented may be indented again. -/
theorem exists_iterate_indent_around (unit before after : String) (depth : ℕ) :
    ∃ before' after', ∀ w : String, '\n' ∉ w.toList → Ends w.toList →
      (fun text => indent text unit)^[depth] (before ++ w ++ after) = before' ++ w ++ after' := by
  induction depth with
  | zero => exact ⟨before, after, fun _ _ _ => rfl⟩
  | succ depth ih =>
    obtain ⟨inner, inner', hinner⟩ := ih
    obtain ⟨outer, outer', houter⟩ := exists_indent_around unit inner inner'
    refine ⟨outer, outer', fun w hw hends => ?_⟩
    rw [Function.iterate_succ_apply', hinner w hw hends, houter w hw hends]

/-! ## Bodies of literals -/

namespace Quoted

variable {c : Char} {text before after : List Char}

def replaceChar (c : Char) (new text : List Char) : List Char :=
  text.flatMap fun d => if d = c then new else [d]

/-- Whether the next character is escaped: a backslash escapes what follows it, unless it is escaped
itself. -/
def pending (text : List Char) : Bool :=
  text.foldl (fun escaped c => !escaped && c == '\\') false

/-- A string between its quotes. -/
structure IsBody (s : String) (body : List Char) : Prop where
  /-- One replacement after the other makes it.  The backslashes that the later ones put in are not
  doubled, since doubling comes first. -/
  replaced : body = replaceChar '\n' ['\\', 'n']
    (replaceChar '"' ['\\', '"'] (replaceChar '\\' ['\\', '\\'] s.toList))
  not_mem_feed : '\n' ∉ body
  escaped : ∀ before after, body = before ++ '"' :: after → pending before = true
  /-- The quote that ends the literal is not escaped. -/
  closed : pending body = false
  decode_eq : decode body = some s.toList

/-- A character is written with a backslash before it, or as itself. -/
theorem encodeChar_cases (c : Char) :
    (∃ d, encodeChar c = ['\\', d] ∧ d ≠ '\n') ∨
      encodeChar c = [c] ∧ c ≠ '\\' ∧ c ≠ '"' ∧ c ≠ '\n' := by
  unfold encodeChar
  split
  · exact .inl ⟨'\\', rfl, by decide⟩
  · rename_i hslash
    split
    · exact .inl ⟨'"', rfl, by decide⟩
    · rename_i hquote
      split
      · exact .inl ⟨'n', rfl, by decide⟩
      · rename_i hfeed
        exact .inr ⟨rfl, hslash, hquote, hfeed⟩

/-- A character is encoded by three replacements, the backslash first. -/
theorem encodeChar_eq_replace (c : Char) : encodeChar c = replaceChar '\n' ['\\', 'n']
    (replaceChar '"' ['\\', '"'] (replaceChar '\\' ['\\', '\\'] [c])) := by
  by_cases hslash : c = '\\'
  · subst hslash; rfl
  by_cases hquote : c = '"'
  · subst hquote; rfl
  by_cases hfeed : c = '\n'
  · subst hfeed; rfl
  · simp [replaceChar, encodeChar, hslash, hquote, hfeed]

/-- A text is encoded by three replacements, the backslash first. -/
theorem encode_eq_replace (text : List Char) : encode text = replaceChar '\n' ['\\', 'n']
    (replaceChar '"' ['\\', '"'] (replaceChar '\\' ['\\', '\\'] text)) := by
  rw [encode, funext encodeChar_eq_replace]
  simp only [replaceChar, List.flatMap_assoc, List.flatMap_singleton]

/-- An encoded text has no line feed. -/
theorem not_mem_encode (text : List Char) : '\n' ∉ encode text := by
  intro hmem
  obtain ⟨c, -, hc⟩ := List.mem_flatMap.1 hmem
  rcases encodeChar_cases c with ⟨d, heq, hd⟩ | ⟨heq, -, -, hfeed⟩
  · simp [heq, hd.symm] at hc
  · simp [heq, hfeed.symm] at hc

/-- An escape that is complete does not reach into what follows. -/
theorem pending_append (h : pending before = false) (after : List Char) :
    pending (before ++ after) = pending after := by
  rw [pending, List.foldl_append, ← pending, h]
  rfl

theorem pending_encodeChar (c : Char) : pending (encodeChar c) = false := by
  rcases encodeChar_cases c with ⟨d, heq, -⟩ | ⟨heq, hslash, -, -⟩
  · rw [heq]; rfl
  · simp [heq, pending, hslash]

/-- An encoded text ends in no open escape. -/
theorem pending_encode (text : List Char) : pending (encode text) = false := by
  induction text with
  | nil => rfl
  | cons c rest ih =>
    rw [encode, List.flatMap_cons, pending_append (pending_encodeChar c)]
    exact ih

/-- Within an encoded character, a quote comes after an escape. -/
theorem pending_of_encodeChar_eq (h : encodeChar c = before ++ '"' :: after) :
    pending before = true := by
  rcases encodeChar_cases c with ⟨d, heq, -⟩ | ⟨heq, -, hquote, -⟩
  · rw [heq] at h
    rcases before with _ | ⟨b, _ | ⟨b', before⟩⟩
    · simp at h
    · obtain ⟨rfl, -⟩ := List.cons.inj h
      rfl
    · simp at h
  · rw [heq] at h
    rcases before with _ | ⟨b, before⟩
    · exact absurd (List.cons.inj h).1 hquote
    · simp at h

/-- A quote in a body was written for one character, with the backslash before it. -/
theorem pending_of_encode_eq (h : encode text = before ++ '"' :: after) :
    pending before = true := by
  induction text generalizing before with
  | nil => simp [encode] at h
  | cons c rest ih =>
    rw [encode, List.flatMap_cons, ← encode, List.append_eq_append_iff] at h
    rcases h with ⟨more, rfl, hrest⟩ | ⟨more, hc, hrest⟩
    · rw [pending_append (pending_encodeChar c)]
      exact ih hrest
    · cases more with
      | nil =>
        have hstart : pending [] = true := ih hrest.symm
        cases hstart
      | cons d more =>
        obtain ⟨rfl, -⟩ := List.cons.inj hrest
        exact pending_of_encodeChar_eq hc

/-- An encoded text is the body of a string for that text. -/
theorem isBody_encode (s : String) : IsBody s (encode s.toList) where
  replaced := encode_eq_replace s.toList
  not_mem_feed := not_mem_encode s.toList
  escaped _ _ := pending_of_encode_eq
  closed := pending_encode s.toList
  decode_eq := decode_encode s.toList

theorem toList_quote (s : String) : (quote s).toList = ['"'] ++ encode s.toList ++ ['"'] := by
  simp [quote]

/-- Different texts are quoted differently. -/
theorem quote_injective : Function.Injective quote := by
  intro s s' h
  have hbodies : encode s.toList = encode s'.toList := by
    have hlists := congrArg String.toList h
    simpa only [toList_quote, List.append_left_inj, List.append_right_inj] using hlists
  have hread := congrArg decode hbodies
  rw [decode_encode, decode_encode] at hread
  exact String.toList_inj.1 (Option.some.inj hread)

theorem not_mem_quote (s : String) : '\n' ∉ (quote s).toList := by
  rw [toList_quote]
  simp [not_mem_encode]

/-- A quoted text ends with its quote. -/
theorem ends_quote (s : String) : Ends (quote s).toList :=
  ⟨['"'] ++ encode s.toList, '"', toList_quote s, by decide, by decide⟩

end Quoted

end EntityFlow.Text

namespace EntityFlow.Literal

open Text

/-- A string literal is a body between quotes that reads back as the string.  Different strings have
different literals.  Text around a literal can be indented as deep as one likes: what becomes of the
text does not depend on the string, and the literal stays as it is. -/
theorem render_string_decodes :
    (∀ s, ∃ body, (Literal.string s).render.toList = ['"'] ++ body ++ ['"'] ∧
    Quoted.IsBody s body) ∧
    Function.Injective (fun s => (Literal.string s).render) ∧
    ∀ unit before after depth, ∃ before' after', ∀ s,
      (fun text => indent text unit)^[depth] (before ++ (Literal.string s).render ++ after) =
        before' ++ (Literal.string s).render ++ after' := by
  refine ⟨fun s => ⟨_, Quoted.toList_quote s, Quoted.isBody_encode s⟩, Quoted.quote_injective, ?_⟩
  intro unit before after depth
  obtain ⟨before', after', h⟩ := exists_iterate_indent_around unit before after depth
  exact ⟨before', after', fun s => h _ (Quoted.not_mem_quote s) (Quoted.ends_quote s)⟩

end EntityFlow.Literal
