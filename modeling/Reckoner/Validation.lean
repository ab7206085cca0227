import Reckoner.Failure
import Reckoner.Text.Identifier
import Reckoner.Vocabulary

/-!
# Checking names

Before an expression reaches an engine, its blanks are removed, its square brackets
become round, and two checks look at its words: every word has to be a call, a known
name or a single letter, and every call has to name a function that may be called.
-/

namespace Reckoner.Validation

/-- Round brackets in the place of square ones. -/
def roundBracket (c : Char) : Char := if c = '[' then '(' else if c = ']' then ')' else c

/-- A text without blanks and square brackets. -/
def normalizeChars (s : List Char) : List Char := (Text.dropBlanks s).map roundBracket

/-- A text without blanks and square brackets. -/
def normalize (s : String) : String := String.ofList (normalizeChars s.toList)

/-- No square bracket is left. -/
theorem roundBracket_roundBracket (c : Char) : roundBracket (roundBracket c) = roundBracket c := by
  simp only [roundBracket]
  split
  · rfl
  · split
    · rfl
    · simp only [*]

/-- A bracket is no blank, whatever its shape. -/
private theorem isBlank_roundBracket (c : Char) :
    Text.isBlank (roundBracket c) = Text.isBlank c := by
  simp only [roundBracket]
  split
  · rename_i h
    subst h
    rfl
  · split
    · rename_i h
      subst h
      rfl
    · rfl

/-- A normalized text is its own normal form. -/
theorem normalizeChars_normalizeChars (s : List Char) :
    normalizeChars (normalizeChars s) = normalizeChars s := by
  have h : Text.dropBlanks ((Text.dropBlanks s).map roundBracket) =
      (Text.dropBlanks s).map roundBracket := by
    rw [Text.dropBlanks, List.filter_eq_self]
    intro c hc
    obtain ⟨d, hd, rfl⟩ := List.mem_map.mp hc
    rw [isBlank_roundBracket, Text.isBlank_of_mem_dropBlanks hd]
    rfl
  simp only [normalizeChars, h, List.map_map]
  congr 1
  funext c
  exact roundBracket_roundBracket c

/-- The word may stand where it does. -/
def isRecognized (w : Text.Identifier) : Bool :=
  w.isCall || w.isSingle || Vocabulary.isConstant w.text || Vocabulary.isKeyword w.text

/-- Refuse the first word that may not stand where it does. -/
def checkGrammar (s : String) : Except Failure Unit :=
  match (Text.identifiers s.toList).find? fun w => !isRecognized w with
  | some w => .error (.unrecognized w.text)
  | none => .ok ()

/-- Refuse the first call of a function that may not be called. -/
def checkSemantics (s : String) : Except Failure Unit :=
  match (Text.identifiers s.toList).find? fun w => w.isCall && !Vocabulary.isFunction w.text with
  | some w => .error (.forbidden w.text)
  | none => .ok ()

end Reckoner.Validation
