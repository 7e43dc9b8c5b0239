import EntityFlow.Proofs.Text.Identifier

/-!
# Shaping what is shaped

Identifiers are what shaping leaves alone.  Every name is a shaped word whose first letter may be in
another case, and that is an identifier too; so shaping a name again changes the case of its first
letter and nothing else.
-/

namespace EntityFlow.Text

variable {f g : Char → Char} {word : List Char}

/-- A word is joined to itself. -/
theorem joinWords_eq_self (h : ∀ c ∈ word, isWordChar c = true) (started : Bool) :
    joinWords false started word = word := by
  induction word generalizing started with
  | nil => rfl
  | cons c rest ih =>
    obtain ⟨hc, hrest⟩ := List.forall_mem_cons.1 h
    rw [joinWords, if_pos hc, ih hrest]
    rfl

/-- An identifier is shaped into itself. -/
theorem IsIdentifier.shape_eq (h : IsIdentifier word) : shape word = word := by
  obtain ⟨⟨c, hhead, hdigit⟩, hword⟩ := h
  obtain ⟨rest, rfl⟩ := List.head?_eq_some_iff.1 hhead
  simp [shape, joinWords_eq_self hword, guardDigit, hdigit]

/-- The identifiers are the fixed points of shaping. -/
theorem shape_eq_self_iff : shape word = word ↔ IsIdentifier word :=
  ⟨fun h => h ▸ isIdentifier_shape word, IsIdentifier.shape_eq⟩

/-! ## The case of the first letter -/

theorem mapHead_mapHead (f g : Char → Char) (word : List Char) :
    mapHead f (mapHead g word) = mapHead (f ∘ g) word := by
  cases word <;> rfl

/-- Changing the case of its first letter keeps an identifier one. -/
theorem IsIdentifier.mapHead (h : IsIdentifier word) (hf : Recases f) :
    IsIdentifier (mapHead f word) := by
  obtain ⟨⟨c, hhead, hdigit⟩, hword⟩ := h
  obtain ⟨rest, rfl⟩ := List.head?_eq_some_iff.1 hhead
  obtain ⟨hc, hrest⟩ := List.forall_mem_cons.1 hword
  exact ⟨⟨f c, rfl, hf.isDigit hdigit⟩, List.forall_mem_cons.2 ⟨hf.isWordChar hc, hrest⟩⟩

/-- Shaping a name again changes nothing but its first letter. -/
theorem mapHead_shape_mapHead (hg : Recases g) (hint : List Char) :
    mapHead f (shape (mapHead g (shape hint))) = mapHead (f ∘ g) (shape hint) := by
  rw [((isIdentifier_shape hint).mapHead hg).shape_eq, mapHead_mapHead]

/-- The identifiers that a name keeps are those whose first letter has the right case. -/
theorem mapHead_shape_eq_self_iff (hf : Recases f) :
    mapHead f (shape word) = word ↔ IsIdentifier word ∧ ∀ c, word.head? = some c → f c = c := by
  constructor
  · intro h
    have hword : IsIdentifier word := h ▸ (isIdentifier_shape word).mapHead hf
    refine ⟨hword, fun c hc => ?_⟩
    obtain ⟨rest, rfl⟩ := List.head?_eq_some_iff.1 hc
    rw [hword.shape_eq] at h
    exact (List.cons.inj h).1
  · rintro ⟨hword, hcase⟩
    rw [hword.shape_eq]
    cases word with
    | nil => rfl
    | cons c rest => rw [mapHead, hcase c rfl]

theorem toLower_eq_self_iff {c : Char} : c.toLower = c ↔ c.isUpper = false := by
  refine ⟨fun h => h ▸ Char.isUpper_toLower_eq_false c, fun h => ?_⟩
  exact Char.toLower_eq_of_not_isUpper (by simp [h])

theorem toUpper_eq_self_iff {c : Char} : c.toUpper = c ↔ c.isLower = false := by
  refine ⟨fun h => h ▸ Char.isLower_toUpper_eq_false c, fun h => ?_⟩
  exact Char.toUpper_eq_of_not_isLower (by simp [h])

/-! ## Names -/

/-- The identifiers are the fixed points of sanitizing. -/
theorem sanitize_eq_self_iff {hint : String} : sanitize hint = hint ↔ IsIdentifier hint.toList := by
  rw [← shape_eq_self_iff, ← String.toList_inj, sanitize, String.toList_ofList]

/-- Every hint gives a variable name that is an identifier. -/
theorem isIdentifier_variableName (hint : String) : IsIdentifier (variableName hint).toList := by
  rw [variableName, String.toList_ofList]
  exact (isIdentifier_shape _).mapHead recases_toLower

/-- Every hint gives a type name that is an identifier. -/
theorem isIdentifier_typeName (hint : String) : IsIdentifier (typeName hint).toList := by
  rw [typeName, String.toList_ofList]
  exact (isIdentifier_shape _).mapHead recases_toUpper

/-- The fixed points of naming a variable are the identifiers that do not start in upper case. -/
theorem variableName_eq_self_iff {hint : String} : variableName hint = hint ↔
    IsIdentifier hint.toList ∧ hint.toList.head?.any Char.isUpper = false := by
  rw [← String.toList_inj, variableName, String.toList_ofList,
    mapHead_shape_eq_self_iff recases_toLower]
  simp only [toLower_eq_self_iff, Option.any_eq_false]

/-- The fixed points of naming a type are the identifiers that do not start in lower case. -/
theorem typeName_eq_self_iff {hint : String} : typeName hint = hint ↔
    IsIdentifier hint.toList ∧ hint.toList.head?.any Char.isLower = false := by
  rw [← String.toList_inj, typeName, String.toList_ofList,
    mapHead_shape_eq_self_iff recases_toUpper]
  simp only [toUpper_eq_self_iff, Option.any_eq_false]

/-- A type name does not depend on the case in which its hint starts. -/
theorem typeName_variableName (hint : String) : typeName (variableName hint) = typeName hint := by
  rw [typeName, variableName, String.toList_ofList, mapHead_shape_mapHead recases_toLower, typeName]
  exact congrArg (fun f => String.ofList (mapHead f _)) (funext Char.toUpper_toLower_eq_toUpper)

/-- A variable name does not depend on the case in which its hint starts. -/
theorem variableName_typeName (hint : String) :
    variableName (typeName hint) = variableName hint := by
  rw [variableName, typeName, String.toList_ofList, mapHead_shape_mapHead recases_toUpper,
    variableName]
  exact congrArg (fun f => String.ofList (mapHead f _)) (funext Char.toLower_toUpper_eq_toLower)

theorem variableName_variableName (hint : String) :
    variableName (variableName hint) = variableName hint := by
  rw [← variableName_typeName (variableName hint), typeName_variableName, variableName_typeName]

theorem typeName_typeName (hint : String) : typeName (typeName hint) = typeName hint := by
  rw [← typeName_variableName (typeName hint), variableName_typeName, typeName_variableName]

/-- Shaping gives identifiers, and identifiers are all that it leaves alone.  The names of variables
are the identifiers that do not start with a capital letter, those of types the ones that do not
start with a small letter, and each of the two can be had from the other. -/
theorem shaping_absorbs (hint : String) :
    IsIdentifier (sanitize hint).toList ∧
    (sanitize hint = hint ↔ IsIdentifier hint.toList) ∧
    sanitize (sanitize hint) = sanitize hint ∧
    IsIdentifier (variableName hint).toList ∧
    (variableName hint = hint ↔
      IsIdentifier hint.toList ∧ hint.toList.head?.any Char.isUpper = false) ∧
    variableName (variableName hint) = variableName hint ∧
    IsIdentifier (typeName hint).toList ∧
    (typeName hint = hint ↔
      IsIdentifier hint.toList ∧ hint.toList.head?.any Char.isLower = false) ∧
    typeName (typeName hint) = typeName hint ∧
    typeName (variableName hint) = typeName hint ∧
    variableName (typeName hint) = variableName hint :=
  ⟨isIdentifier_sanitize hint, sanitize_eq_self_iff,
    sanitize_eq_self_iff.2 (isIdentifier_sanitize hint),
    isIdentifier_variableName hint, variableName_eq_self_iff, variableName_variableName hint,
    isIdentifier_typeName hint, typeName_eq_self_iff, typeName_typeName hint,
    typeName_variableName hint, variableName_typeName hint⟩

end EntityFlow.Text
