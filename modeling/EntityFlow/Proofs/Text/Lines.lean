import EntityFlow.Text.Lines
import Mathlib

/-!
# Lines of indented text

Cutting a text at a line feed cuts its lines (`pieces_append_feed`), and everything else about lines
follows from that.  Indentation moves the lines of a text one by one, as `shift` says, if the text
ends in neither a line feed nor a carriage return; blocks end in a brace, so they can be nested.

`Commented` relates a text to the same text with comments around some stretches of it.  It is kept
by all that blocks do to lines.
-/

namespace EntityFlow.Text

variable {text line : List Char} {unit : String}

/-! ## Pieces -/

theorem pieces_ne_nil (text : List Char) : pieces text ≠ [] := by
  cases text with
  | nil => exact List.cons_ne_nil _ _
  | cons c rest =>
    rw [pieces]
    split
    · exact List.cons_ne_nil _ _
    · split <;> exact List.cons_ne_nil _ _

/-- A line feed separates pieces. -/
theorem pieces_append_feed (a b : List Char) : pieces (a ++ '\n' :: b) = pieces a ++ pieces b := by
  induction a with
  | nil => rfl
  | cons c a ih =>
    rw [List.cons_append, pieces, ih, pieces]
    split
    · rfl
    · obtain ⟨piece, more, hpieces⟩ := List.exists_cons_of_ne_nil (pieces_ne_nil a)
      simp [hpieces]

/-- A text without line feed is one piece. -/
theorem pieces_eq_singleton (h : '\n' ∉ line) : pieces line = [line] := by
  induction line with
  | nil => rfl
  | cons c rest ih =>
    rw [List.mem_cons, not_or] at h
    rw [pieces, if_neg (Ne.symm h.1), ih h.2]

/-- A piece has no line feed. -/
theorem not_mem_of_mem_pieces (h : line ∈ pieces text) : '\n' ∉ line := by
  induction text generalizing line with
  | nil => simp [List.mem_singleton.1 h]
  | cons c rest ih =>
    rw [pieces] at h
    split at h
    · rcases List.mem_cons.1 h with rfl | h
      · exact List.not_mem_nil
      · exact ih h
    · rename_i hc
      obtain ⟨piece, more, hpieces⟩ := List.exists_cons_of_ne_nil (pieces_ne_nil rest)
      rw [hpieces] at h ih
      rcases List.mem_cons.1 h with rfl | h
      · exact fun hmem => (List.mem_cons.1 hmem).elim (fun e => hc e.symm)
          (ih (List.mem_cons_self ..))
      · exact ih (List.mem_cons_of_mem _ h)

/-- A character that is no line feed goes in front of the first piece. -/
theorem exists_pieces_cons {c : Char} (hc : c ≠ '\n') (rest : List Char) :
    ∃ line more, pieces (c :: rest) = (c :: line) :: more := by
  obtain ⟨line, more, hpieces⟩ := List.exists_cons_of_ne_nil (pieces_ne_nil rest)
  exact ⟨line, more, by rw [pieces, if_neg hc, hpieces]⟩

/-- Lines that are put together are read back. -/
theorem pieces_intercalate {lines : List (List Char)} (hne : lines ≠ [])
    (h : ∀ line ∈ lines, '\n' ∉ line) : pieces (['\n'].intercalate lines) = lines := by
  induction lines with
  | nil => exact absurd rfl hne
  | cons line rest ih =>
    have hline := pieces_eq_singleton (h line (List.mem_cons_self ..))
    cases rest with
    | nil => rw [List.intercalate_singleton, hline]
    | cons next rest =>
      have hrest := ih (List.cons_ne_nil _ _) fun l hl => h l (List.mem_cons_of_mem _ hl)
      rw [List.intercalate_cons_cons, List.append_assoc, List.singleton_append, pieces_append_feed,
        hline, hrest, List.singleton_append]

theorem intercalate_cons {α : Type*} (sep a : List α) (rest : List (List α)) :
    sep.intercalate (a :: rest) = a ++ rest.flatMap (sep ++ ·) := by
  induction rest generalizing a with
  | nil => simp
  | cons b rest ih => rw [List.intercalate_cons_cons, ih, List.flatMap_cons, List.append_assoc,
      List.append_assoc]

theorem infix_intercalate {α : Type*} (sep : List α) {x : List α} {xs : List (List α)}
    (h : x ∈ xs) : x <:+: sep.intercalate xs := by
  obtain ⟨init, rest, rfl⟩ := List.append_of_mem h
  cases init with
  | nil =>
    rw [List.nil_append, intercalate_cons]
    exact ⟨[], _, rfl⟩
  | cons y init =>
    rw [List.cons_append, intercalate_cons, List.flatMap_append, List.flatMap_cons]
    exact ⟨y ++ init.flatMap (sep ++ ·) ++ sep, rest.flatMap (sep ++ ·), by simp⟩

/-- The lines of a text, with all that stands between two line feeds. -/
def rows (text : String) : List (List Char) := pieces text.toList

/-- Texts that line feeds separate keep their lines. -/
theorem rows_intercalate {texts : List String} (hne : texts ≠ []) :
    rows ("\n".intercalate texts) = texts.flatMap rows := by
  induction texts with
  | nil => exact absurd rfl hne
  | cons text rest ih =>
    cases rest with
    | nil => simp [rows]
    | cons next rest =>
      have hcut : ("\n".intercalate (text :: next :: rest)).toList =
          text.toList ++ '\n' :: ("\n".intercalate (next :: rest)).toList := by
        simp [String.toList_intercalate]
      rw [List.flatMap_cons, ← ih (List.cons_ne_nil _ _), rows, hcut, pieces_append_feed]
      rfl

/-- An empty line stands between texts that two line feeds separate. -/
theorem pieces_sections {texts : List String} (hne : texts ≠ []) :
    pieces ("\n\n".intercalate texts).toList =
      [[]].intercalate (texts.map fun text => pieces text.toList) := by
  have hlists : ∀ rest : List (List Char), ∀ a, pieces (a ++ rest.flatMap (['\n', '\n'] ++ ·)) =
      pieces a ++ (rest.map pieces).flatMap ([[]] ++ ·) := by
    intro rest
    induction rest with
    | nil => simp
    | cons b rest ih =>
      intro a
      have hcut : a ++ (b :: rest).flatMap (['\n', '\n'] ++ ·) =
          a ++ '\n' :: ([] ++ '\n' :: (b ++ rest.flatMap (['\n', '\n'] ++ ·))) := by simp
      rw [hcut, pieces_append_feed, pieces_append_feed, ih]
      simp [pieces]
  obtain ⟨text, rest, rfl⟩ := List.exists_cons_of_ne_nil hne
  rw [String.toList_intercalate, List.map_cons, List.map_cons, intercalate_cons, intercalate_cons]
  exact (hlists _ _).trans (by rw [List.map_map]; rfl)

/-! ## Indentation -/

/-- Where a line goes when its text is indented.  A carriage return at its end counts as a part of
the line end. -/
def shift (unit line : List Char) : List Char :=
  if (dropReturn line).isEmpty then [] else unit ++ dropReturn line

/-- Texts whose last line is not empty and has no carriage return at its end. -/
def Ends (text : List Char) : Prop := ∃ init c, text = init ++ [c] ∧ c ≠ '\n' ∧ c ≠ '\r'

theorem Ends.append_left (h : Ends text) (a : List Char) : Ends (a ++ text) := by
  obtain ⟨init, c, rfl, hc⟩ := h
  exact ⟨a ++ init, c, (List.append_assoc a init [c]).symm, hc⟩

theorem Ends.ne_nil (h : Ends text) : text ≠ [] := by
  obtain ⟨init, c, rfl, -⟩ := h
  exact List.append_ne_nil_of_right_ne_nil _ (List.cons_ne_nil _ _)

theorem Ends.intercalate {texts : List String} {last : String} (h : Ends last.toList)
    (hlast : texts.getLast? = some last) (sep : String) : Ends (sep.intercalate texts).toList := by
  induction texts with
  | nil => cases hlast
  | cons text rest ih =>
    cases rest with
    | nil =>
      obtain rfl : text = last := by simpa using hlast
      simpa [String.toList_intercalate] using h
    | cons next rest =>
      rw [List.getLast?_cons_cons] at hlast
      have hrest := ih hlast
      rw [String.toList_intercalate] at hrest ⊢
      rw [List.map_cons, List.map_cons, List.intercalate_cons_cons, ← List.map_cons]
      exact hrest.append_left _

theorem getLast?_pieces_concat (text : List Char) {c : Char} (hc : c ≠ '\n') :
    ∃ last, (pieces (text ++ [c])).getLast? = some (last ++ [c]) := by
  induction text with
  | nil => exact ⟨[], by simp [pieces, hc]⟩
  | cons d rest ih =>
    obtain ⟨last, hlast⟩ := ih
    obtain ⟨piece, more, hpieces⟩ := List.exists_cons_of_ne_nil (pieces_ne_nil (rest ++ [c]))
    rw [hpieces] at hlast
    rw [List.cons_append, pieces, hpieces]
    split
    · exact ⟨last, by rw [List.getLast?_cons_cons, hlast]⟩
    · cases more with
      | nil =>
        obtain rfl : piece = last ++ [c] := by simpa using hlast
        exact ⟨d :: last, rfl⟩
      | cons next more =>
        exact ⟨last, by rwa [List.getLast?_cons_cons] at hlast ⊢⟩

theorem dropReturn_concat (line : List Char) {c : Char} (hc : c ≠ '\r') :
    dropReturn (line ++ [c]) = line ++ [c] := by
  simp [dropReturn, hc]

/-- Only the last piece keeps its carriage return, and it is no line if it is empty. -/
theorem lines_of_pieces {all : List (List Char)} (h : pieces text = all ++ [line]) :
    lines text = all.map dropReturn ++ if line.isEmpty then [] else [line] := by
  rw [lines, h]
  cases line <;> simp

/-- A text that ends in neither feed nor return has the pieces as its lines, but for returns. -/
theorem lines_eq (h : Ends text) : lines text = (pieces text).map dropReturn := by
  obtain ⟨init, c, rfl, hfeed, hreturn⟩ := h
  obtain ⟨last, hlast⟩ := getLast?_pieces_concat init hfeed
  have hsplit : pieces (init ++ [c]) = (pieces (init ++ [c])).dropLast ++ [last ++ [c]] :=
    (List.dropLast_append_getLast? _ hlast).symm
  rw [lines_of_pieces hsplit]
  nth_rewrite 2 [hsplit]
  rw [List.map_append, List.map_singleton, dropReturn_concat last hreturn]
  simp

/-- A line one level deeper; an empty line stays empty. -/
def put (unit line : List Char) : List Char := if line.isEmpty then [] else unit ++ line

theorem feed_not_mem_put {unit line : List Char} (hunit : '\n' ∉ unit) (hline : '\n' ∉ line) :
    '\n' ∉ put unit line := by
  unfold put
  split
  · exact List.not_mem_nil
  · simp [hunit, hline]

theorem exists_pieces_concat (text : List Char) : ∃ all last, pieces text = all ++ [last] :=
  ⟨_, _, (List.dropLast_append_getLast (pieces_ne_nil text)).symm⟩

/-- A line has no line feed. -/
theorem feed_not_mem_lines (h : line ∈ lines text) : '\n' ∉ line := by
  obtain ⟨all, last, hpieces⟩ := exists_pieces_concat text
  have hfeed : ∀ piece ∈ all ++ [last], '\n' ∉ piece :=
    fun piece hpiece => not_mem_of_mem_pieces (hpieces ▸ hpiece)
  rw [lines_of_pieces hpieces] at h
  rcases List.mem_append.1 h with h | h
  · obtain ⟨piece, hpiece, rfl⟩ := List.mem_map.1 h
    intro hmem
    unfold dropReturn at hmem
    split at hmem
    · exact hfeed piece (List.mem_append_left _ hpiece) (List.mem_of_mem_dropLast hmem)
    · exact hfeed piece (List.mem_append_left _ hpiece) hmem
  · split at h
    · exact absurd h List.not_mem_nil
    · exact hfeed line (List.mem_append_right _ h)

/-- Every text but the empty one has a line. -/
theorem lines_ne_nil (h : text ≠ []) : lines text ≠ [] := by
  obtain ⟨all, last, hpieces⟩ := exists_pieces_concat text
  rw [lines_of_pieces hpieces]
  cases all with
  | cons => exact List.append_ne_nil_of_left_ne_nil (List.cons_ne_nil _ _) _
  | nil =>
    cases last with
    | cons => exact List.cons_ne_nil _ _
    | nil =>
      obtain ⟨c, rest, rfl⟩ := List.exists_cons_of_ne_nil h
      by_cases hc : c = '\n'
      · rw [pieces, if_pos hc] at hpieces
        exact absurd (List.cons.inj hpieces).2 (pieces_ne_nil rest)
      · obtain ⟨line, more, hcons⟩ := exists_pieces_cons hc rest
        rw [hcons] at hpieces
        exact absurd (List.cons.inj hpieces).1 (List.cons_ne_nil _ _)

/-- Indentation puts the unit in front of every line. -/
theorem pieces_indent {body : String} (hunit : '\n' ∉ unit.toList) (hne : body.toList ≠ []) :
    pieces (indent body unit).toList = (lines body.toList).map (put unit.toList) := by
  have htext : (indent body unit).toList =
      ['\n'].intercalate ((lines body.toList).map (put unit.toList)) := by
    rw [indent, String.toList_intercalate, List.map_map]
    congr 1
    refine List.map_congr_left fun line _ => ?_
    simp only [Function.comp_apply, put]
    split <;> simp
  rw [htext]
  refine pieces_intercalate (by simpa using lines_ne_nil hne) fun line hline => ?_
  obtain ⟨line, hmem, rfl⟩ := List.mem_map.1 hline
  exact feed_not_mem_put hunit (feed_not_mem_lines hmem)

/-- A block puts a header before the lines of its body and a brace after them. -/
theorem pieces_block_lines (header body : String) (hunit : '\n' ∉ unit.toList) :
    pieces (block header body unit).toList = pieces (header.toList ++ [' ', '\x7b']) ++
      (lines body.toList).map (put unit.toList) ++ [['\x7d']] := by
  by_cases hbody : body.isEmpty
  · have htext : (block header body unit).toList = (header.toList ++ [' ', '\x7b']) ++
        '\n' :: ['\x7d'] := by
      simp [block, hbody]
    rw [htext, pieces_append_feed, String.isEmpty_iff.1 hbody]
    simp [lines, pieces]
  · have hne : body.toList ≠ [] := by simpa [String.isEmpty_iff] using hbody
    have htext : (block header body unit).toList = (header.toList ++ [' ', '\x7b']) ++
        '\n' :: ((indent body unit).toList ++ '\n' :: ['\x7d']) := by
      simp [block, hbody]
    rw [htext, pieces_append_feed, pieces_append_feed, pieces_indent hunit hne, List.append_assoc]
    rfl

/-- Lines that are put behind the unit are pieces that are shifted. -/
theorem map_put_lines (unit : List Char) (h : Ends text) :
    (lines text).map (put unit) = (pieces text).map (shift unit) := by
  rw [lines_eq h, List.map_map]
  rfl

/-- The lines of a block: its header, its body one level deeper, and the closing brace. -/
theorem pieces_block {header body : String} (hunit : '\n' ∉ unit.toList) (h : Ends body.toList) :
    pieces (block header body unit).toList = pieces (header.toList ++ [' ', '\x7b']) ++
      (pieces body.toList).map (shift unit.toList) ++ [['\x7d']] := by
  rw [pieces_block_lines header body hunit, map_put_lines _ h]

/-- A block ends with its brace. -/
theorem ends_block (header body unit : String) : Ends (block header body unit).toList := by
  refine Exists.elim (?_ : ∃ init, (block header body unit).toList = init ++ ['\x7d'])
    fun init hinit => ⟨init, '\x7d', hinit, by decide, by decide⟩
  unfold block
  split
  · exact ⟨header.toList ++ [' ', '\x7b', '\n'], by simp⟩
  · exact ⟨header.toList ++ [' ', '\x7b', '\n'] ++ (indent body unit).toList ++ ['\n'], by simp⟩

/-! ## How far a line is moved -/

def margin (line : List Char) : List Char := line.takeWhile (· = ' ')

theorem dropReturn_append (a : List Char) (h : line ≠ []) :
    dropReturn (a ++ line) = a ++ dropReturn line := by
  simp only [dropReturn, List.getLast?_append_of_ne_nil _ h]
  split
  · exact List.dropLast_append_of_ne_nil h
  · rfl

/-- A line that starts with something else than a carriage return keeps its first character. -/
theorem exists_dropReturn_cons {c : Char} (hc : c ≠ '\r') (rest : List Char) :
    ∃ rest', dropReturn (c :: rest) = c :: rest' := by
  cases rest with
  | nil => exact ⟨[], by simp [dropReturn, hc]⟩
  | cons d rest => exact ⟨dropReturn (d :: rest), dropReturn_append [c] (List.cons_ne_nil d rest)⟩

theorem exists_iterate_dropReturn_cons {c : Char} (hc : c ≠ '\r') (rest : List Char) (depth : ℕ) :
    ∃ rest', dropReturn^[depth] (c :: rest) = c :: rest' := by
  induction depth with
  | zero => exact ⟨rest, rfl⟩
  | succ depth ih =>
    obtain ⟨rest', h⟩ := ih
    rw [Function.iterate_succ_apply', h]
    exact exists_dropReturn_cons hc rest'

/-- Shifting a line several times puts as many units in front of it. -/
theorem iterate_shift {c : Char} (hc : c ≠ '\r') (unit rest : List Char) (depth : ℕ) :
    (shift unit)^[depth] (c :: rest) =
      (List.replicate depth unit).flatten ++ dropReturn^[depth] (c :: rest) := by
  induction depth with
  | zero => rfl
  | succ depth ih =>
    obtain ⟨rest', h⟩ := exists_iterate_dropReturn_cons hc rest depth
    obtain ⟨rest'', h'⟩ := exists_dropReturn_cons hc rest'
    have hmoved : dropReturn ((List.replicate depth unit).flatten ++ c :: rest') =
        (List.replicate depth unit).flatten ++ c :: rest'' := by
      rw [dropReturn_append _ (List.cons_ne_nil c rest'), h']
    rw [Function.iterate_succ_apply', Function.iterate_succ_apply', ih, h, h', shift, hmoved,
      if_neg (by simp), List.replicate_succ, List.flatten_cons, List.append_assoc]

/-- The margin of a line that was moved is as wide as the levels it was moved by. -/
theorem margin_iterate_shift {c : Char} (hc : c ≠ '\r') (hblank : c ≠ ' ') {unit : List Char}
    (hunit : ∀ d ∈ unit, d = ' ') (rest : List Char) (depth : ℕ) :
    margin ((shift unit)^[depth] (c :: rest)) = (List.replicate depth unit).flatten := by
  obtain ⟨rest', h⟩ := exists_iterate_dropReturn_cons hc rest depth
  have hlevels : ∀ d ∈ (List.replicate depth unit).flatten, decide (d = ' ') = true := by
    intro d hd
    obtain ⟨level, hlevel, hd⟩ := List.mem_flatten.1 hd
    exact decide_eq_true (hunit d (List.eq_of_mem_replicate hlevel ▸ hd))
  rw [iterate_shift hc, h, margin, List.takeWhile_append_of_pos hlevels]
  simp [hblank]

/-! ## Comments around stretches of a text -/

/-- Consecutive lines, with a comment before and a comment after them. -/
structure Stretch where
  opening : List Char
  lines : List (List Char)
  closing : List Char

/-- The second text is the first one with the comments of the stretches, and without any other
change. -/
inductive Commented : List Stretch → List (List Char) → List (List Char) → Prop
  | done (rest : List (List Char)) : Commented [] rest rest
  | around (gap : List (List Char)) (s : Stretch) {more : List Stretch}
      {plain traced : List (List Char)} :
      Commented more plain traced →
      Commented (s :: more) (gap ++ s.lines ++ plain)
        (gap ++ [s.opening] ++ s.lines ++ [s.closing] ++ traced)

def Stretch.map (f : List Char → List Char) (s : Stretch) : Stretch :=
  ⟨f s.opening, s.lines.map f, f s.closing⟩

theorem Stretch.map_map (f h : List Char → List Char) (s : Stretch) :
    (s.map f).map h = s.map (h ∘ f) := by
  simp [Stretch.map]

namespace Commented

variable {ss : List Stretch} {plain traced : List (List Char)}

/-- Lines in front of both texts do not matter. -/
theorem append_left (h : Commented ss plain traced) (lines : List (List Char)) :
    Commented ss (lines ++ plain) (lines ++ traced) := by
  cases h with
  | done => exact .done _
  | around gap s h => simpa only [List.append_assoc] using Commented.around (lines ++ gap) s h

/-- Lines behind both texts do not matter. -/
theorem append_right (h : Commented ss plain traced) (lines : List (List Char)) :
    Commented ss (plain ++ lines) (traced ++ lines) := by
  induction h with
  | done rest => exact .done (rest ++ lines)
  | around gap s _ ih => simpa only [List.append_assoc] using Commented.around gap s ih

/-- Moving all lines moves the comments with them. -/
theorem map (h : Commented ss plain traced) (f : List Char → List Char) :
    Commented (ss.map (Stretch.map f)) (plain.map f) (traced.map f) := by
  induction h with
  | done rest => exact .done (rest.map f)
  | around gap s _ ih =>
    simpa [Stretch.map, List.map_append] using Commented.around (gap.map f) (s.map f) ih

/-- Stretches with an empty line before each of them. -/
theorem flatMap (ss : List Stretch) : Commented ss (ss.flatMap fun s => [[]] ++ s.lines)
    (ss.flatMap fun s => [[]] ++ ([s.opening] ++ s.lines ++ [s.closing])) := by
  induction ss with
  | nil => exact .done []
  | cons s more ih => simpa [List.flatMap_cons] using Commented.around [[]] s ih

/-- Sections that an empty line separates, the last ones of them with comments. -/
theorem sections (front : List (List (List Char))) (ss : List Stretch) :
    Commented ss ([[]].intercalate (front ++ ss.map Stretch.lines))
      ([[]].intercalate (front ++ ss.map fun s => [s.opening] ++ s.lines ++ [s.closing])) := by
  cases front with
  | nil =>
    cases ss with
    | nil => exact .done _
    | cons s more =>
      simpa [intercalate_cons, List.flatMap_map] using Commented.around [] s (flatMap more)
  | cons text front =>
    simp only [List.cons_append, intercalate_cons, List.flatMap_append, List.flatMap_map]
    exact ((flatMap ss).append_left _).append_left text

/-- Blocks keep comments, one level deeper. -/
theorem block (header : String) {body body' : String} (hunit : '\n' ∉ unit.toList)
    (hends : Ends body.toList) (hends' : Ends body'.toList)
    (h : Commented ss (pieces body.toList) (pieces body'.toList)) :
    Commented (ss.map (Stretch.map (shift unit.toList))) (pieces (block header body unit).toList)
      (pieces (block header body' unit).toList) := by
  rw [pieces_block hunit hends, pieces_block hunit hends']
  exact ((h.map _).append_left _).append_right _

end Commented

end EntityFlow.Text
