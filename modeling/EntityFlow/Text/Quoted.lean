/-! # Quoted strings

A quoted string stands between double quotes. Inside, a backslash, a double quote and a line feed
are written with a backslash before them; every other character stands for itself. -/

namespace EntityFlow.Text.Quoted

def encodeChar (c : Char) : List Char :=
  if c = '\\' then ['\\', '\\']
  else if c = '"' then ['\\', '"']
  else if c = '\n' then ['\\', 'n']
  else [c]

def encode (text : List Char) : List Char := text.flatMap encodeChar

/-- Read a body back. A lone backslash, a bare quote and a bare line feed are refused. -/
def decode : List Char → Option (List Char)
  | [] => some []
  | '\\' :: '\\' :: rest => (decode rest).map ('\\' :: ·)
  | '\\' :: '"' :: rest => (decode rest).map ('"' :: ·)
  | '\\' :: 'n' :: rest => (decode rest).map ('\n' :: ·)
  | c :: rest =>
      if c = '\\' || c = '"' || c = '\n' then none else (decode rest).map (c :: ·)

/-- Reading back one encoded character leaves the rest to be read. -/
theorem decode_encodeChar (c : Char) (rest : List Char) :
    decode (encodeChar c ++ rest) = (decode rest).map (c :: ·) := by
  by_cases hb : c = '\\'
  · subst hb; simp [encodeChar, decode]
  by_cases hq : c = '"'
  · subst hq; simp [encodeChar, decode]
  by_cases hn : c = '\n'
  · subst hn; simp [encodeChar, decode]
  · simp [encodeChar, hb, hq, hn, decode]

/-- What is encoded is read back. -/
theorem decode_encode (text : List Char) : decode (encode text) = some text := by
  induction text with
  | nil => rfl
  | cons c rest ih =>
      simp only [encode, List.flatMap_cons] at ih ⊢
      rw [decode_encodeChar, ih]
      rfl

/-- The text between double quotes. -/
def quote (text : String) : String := "\"" ++ String.ofList (encode text.toList) ++ "\""

end EntityFlow.Text.Quoted
