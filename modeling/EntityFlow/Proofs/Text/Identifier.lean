import EntityFlow.Text.Identifier
import Mathlib

/-!
# Identifiers

Shaping keeps word characters and puts nothing else in, so its result is an identifier whatever the
hint was.  An identifier stays one when word characters follow it.
-/

namespace EntityFlow.Text

variable {c : Char} {gap started : Bool} {hint word : List Char}

theorem isWordChar_of_isDigit (h : c.isDigit = true) : isWordChar c = true := by
  simp [isWordChar, Char.isAlphanum, h]

theorem isDigit_of_isAlpha (h : c.isAlpha = true) : c.isDigit = false := by
  simp only [Char.isAlpha, Char.isUpper, Char.isLower, Bool.or_eq_true, Bool.and_eq_true,
    decide_eq_true_eq, UInt32.le_iff_toNat_le, UInt32.reduceToNat, Char.reduceVal] at h
  simp only [Char.isDigit, Bool.and_eq_false_iff, decide_eq_false_iff_not, UInt32.le_iff_toNat_le,
    UInt32.reduceToNat, Char.reduceVal]
  omega

/-- A function that may put a letter for a character, and changes nothing else. -/
def Recases (f : Char → Char) : Prop := ∀ c, f c = c ∨ (f c).isAlpha = true

/-- Upper case takes letters to letters and leaves the rest. -/
theorem recases_toUpper : Recases Char.toUpper := by
  intro c
  by_cases hl : c.isLower = true
  · exact .inr (by simp [Char.isAlpha, hl])
  · exact .inl (Char.toUpper_eq_of_not_isLower hl)

/-- Lower case takes letters to letters and leaves the rest. -/
theorem recases_toLower : Recases Char.toLower := by
  intro c
  by_cases hu : c.isUpper = true
  · exact .inr (by simp [Char.isAlpha, hu])
  · exact .inl (Char.toLower_eq_of_not_isUpper hu)

theorem Recases.isWordChar {f : Char → Char} (hf : Recases f) (h : isWordChar c = true) :
    isWordChar (f c) = true := by
  rcases hf c with hsame | halpha
  · rwa [hsame]
  · simp [Text.isWordChar, Char.isAlphanum, halpha]

theorem Recases.isDigit {f : Char → Char} (hf : Recases f) (h : c.isDigit = false) :
    (f c).isDigit = false := by
  rcases hf c with hsame | halpha
  · rwa [hsame]
  · exact isDigit_of_isAlpha halpha

/-- Joined words consist of word characters. -/
theorem isWordChar_of_mem_joinWords (h : c ∈ joinWords gap started hint) : isWordChar c = true := by
  induction hint generalizing gap started with
  | nil => simp [joinWords] at h
  | cons d rest ih =>
    rw [joinWords] at h
    split at h
    · rename_i hd
      rcases List.mem_cons.1 h with rfl | h
      · split
        · exact recases_toUpper.isWordChar hd
        · exact hd
      · exact ih h
    · exact ih h

/-- A word that starts with a digit is guarded by an underscore. -/
theorem isIdentifier_guardDigit (hne : word ≠ []) (hw : ∀ c ∈ word, isWordChar c = true) :
    IsIdentifier (guardDigit word) := by
  cases word with
  | nil => exact absurd rfl hne
  | cons c rest =>
    rw [guardDigit]
    split
    · refine ⟨⟨'_', rfl, by decide⟩, ?_⟩
      intro d hd
      rcases List.mem_cons.1 hd with rfl | hd
      · decide
      · exact hw d hd
    · rename_i hc
      exact ⟨⟨c, rfl, by simpa using hc⟩, hw⟩

/-- Every hint is shaped into an identifier. -/
theorem isIdentifier_shape (hint : List Char) : IsIdentifier (shape hint) := by
  unfold shape
  split
  · exact ⟨⟨'i', rfl, by decide⟩, List.all_eq_true.1 rfl⟩
  · rename_i word hne
    exact isIdentifier_guardDigit hne fun _ => isWordChar_of_mem_joinWords

/-- Every hint is turned into an identifier. -/
theorem isIdentifier_sanitize (hint : String) : IsIdentifier (sanitize hint).toList := by
  rw [sanitize, String.toList_ofList]
  exact isIdentifier_shape hint.toList

theorem IsIdentifier.append {tail : List Char} (h : IsIdentifier word)
    (ht : ∀ c ∈ tail, isWordChar c = true) : IsIdentifier (word ++ tail) := by
  obtain ⟨⟨c, hc, hd⟩, hw⟩ := h
  refine ⟨⟨c, by simp [hc], hd⟩, fun d hmem => ?_⟩
  rcases List.mem_append.1 hmem with hmem | hmem
  · exact hw d hmem
  · exact ht d hmem

end EntityFlow.Text
