import Mathlib.Data.List.Basic
import Reckoner.Memory
import Reckoner.Proofs.Validation.Blanks

/-!
# Brackets of both shapes

Values are taken in and written before square brackets become round. The shape of a bracket does
not matter to that: the words of a text and what follows them stay the same, so a memory whose
values are rounded does to a rounded text what the memory itself does to the text, but for the
shape of brackets.
-/

namespace Reckoner

open Validation Token Vocabulary

namespace Text

/-- The text with round brackets only. -/
def rounded (s : List Char) : List Char := s.map roundBracket

/-- Without brackets there are none to round. -/
theorem rounded_eq_self {p : Char → Bool} (hp : Bracketless p) {s : List Char}
    (h : ∀ c ∈ s, p c = true) : rounded s = s := by
  rw [rounded]
  conv_rhs => rw [← List.map_id s]
  exact List.map_congr_left fun c hc => roundBracket_eq_self hp (h c hc)

theorem bracketless_isBlank : Bracketless isBlank := by decide

/-- Blanks are dropped from rounded texts as from others. -/
theorem dropBlanks_rounded (s : List Char) : dropBlanks (rounded s) = rounded (dropBlanks s) := by
  rw [dropBlanks, rounded, List.filter_map, dropBlanks, rounded]
  congr 2
  funext c
  exact congrArg (!·) (apply_roundBracket bracketless_isBlank c)

/-- The normal form depends on the rounded text only. -/
theorem normalizeChars_eq_dropBlanks (s : List Char) :
    normalizeChars s = dropBlanks (rounded s) :=
  (dropBlanks_rounded s).symm

/-- Texts that are the same but for their brackets have the same normal form. -/
theorem normalize_eq_of_rounded {s t : List Char} (h : rounded s = rounded t) :
    Validation.normalize (String.ofList s) = Validation.normalize (String.ofList t) := by
  simp only [Validation.normalize, String.toList_ofList, normalizeChars_eq_dropBlanks, h]

/-! ## Words -/

/-- The same word, or the character as a round bracket. -/
def Piece.rounded : Piece → Piece
  | word w => word w
  | other c => other (roundBracket c)

/-- What does not tell the shapes of a bracket apart sees no difference. -/
theorem congr_roundBracket {α : Type} {f : Char → α} (hopen : f '(' = f '[')
    (hclose : f ')' = f ']') (c : Char) : f (roundBracket c) = f c := by
  unfold roundBracket
  split
  · rename_i h
    rw [h, hopen]
  · split
    · rename_i h
      rw [h, hclose]
    · rfl

/-- Brackets of both shapes hold arguments. -/
theorem opensArguments_rounded (s : List Char) :
    opensArguments (rounded s) = opensArguments s := by
  cases s with
  | nil => rfl
  | cons c rest => exact congr_roundBracket (f := fun c => c == '(' || c == '[') rfl rfl c

/-- Rounding keeps the word that a text starts with. -/
theorem takeWhile_isWord_rounded (s : List Char) :
    (rounded s).takeWhile isWord = s.takeWhile isWord := by
  have hword : isWord ∘ roundBracket = isWord := funext (apply_roundBracket bracketless_isWord)
  rw [rounded, List.takeWhile_map, hword]
  exact rounded_eq_self bracketless_isWord (List.all_eq_true.mp List.all_takeWhile)

/-- Behind its first word a text is rounded like any other. -/
theorem dropWhile_isWord_rounded (s : List Char) :
    (rounded s).dropWhile isWord = rounded (s.dropWhile isWord) := by
  have hword : isWord ∘ roundBracket = isWord := funext (apply_roundBracket bracketless_isWord)
  rw [rounded, List.dropWhile_map, hword, rounded]

/-- A rounded text has the same pieces, but for its brackets. -/
theorem pieces_rounded (f : Bool) (n : Nat) (s : List Char) :
    pieces f n (rounded s) = (pieces f n s).map Piece.rounded := by
  have hstart : Bracketless isWordStart := by decide
  have hnumber : Bracketless continuesNumber := by decide
  fun_induction pieces f n s with
  | case1 f n => rw [rounded, List.map_nil, pieces, List.map_nil]
  | case2 f n c rest h name behind ih =>
    have hc : rounded (c :: rest) = c :: rounded rest :=
      congrArg (· :: rounded rest) (roundBracket_eq_self hstart h)
    rw [hc, pieces_word h, takeWhile_isWord_rounded, dropWhile_isWord_rounded,
      opensArguments_rounded, ih]
    rfl
  | case3 f n c rest h ih =>
    have h' : isWordStart (roundBracket c) = false := by
      rw [apply_roundBracket hstart]
      exact Bool.eq_false_iff.mpr h
    have hc : rounded (c :: rest) = roundBracket c :: rounded rest := rfl
    have hbytes : (roundBracket c).utf8Size = c.utf8Size := congr_roundBracket rfl rfl c
    rw [hc, pieces_other h', hbytes, apply_roundBracket hnumber, ih]
    rfl

/-- A word has no brackets. -/
theorem rounded_name {w : Identifier} {f : Bool} {n : Nat} {s : List Char}
    (h : .word w ∈ pieces f n s) : rounded w.name = w.name := by
  refine rounded_eq_self bracketless_isWord ?_
  fun_induction pieces f n s with
  | case1 => cases h
  | case2 f n c rest hc name behind ih =>
    rcases List.mem_cons.mp h with hw | h
    · cases hw
      intro d hd
      rcases List.mem_cons.mp hd with rfl | hd
      · exact isWord_of_isWordStart hc
      · exact List.all_eq_true.mp List.all_takeWhile d hd
    · exact ih h
  | case3 f n c rest hc ih =>
    rcases List.mem_cons.mp h with hw | h
    · cases hw
    · exact ih h

/-- Rounded replacements in a rounded text give the rounded outcome. -/
theorem replaceWords_rounded {f g : Identifier → Option (List Char)}
    (h : ∀ w, g w = (f w).map rounded) (s : List Char) :
    replaceWords g (rounded s) = rounded (replaceWords f s) := by
  unfold replaceWords piecesOf
  rw [pieces_rounded, List.flatMap_map, rounded, List.map_flatMap]
  refine List.flatMap_congr fun p hp => ?_
  cases p with
  | word w =>
    change (g w).getD w.name = rounded ((f w).getD w.name)
    rw [h w]
    cases f w with
    | none => exact (rounded_name hp).symm
    | some value => rfl
  | other c => rfl

end Text

namespace Memory

/-- The memory with round brackets in its values. -/
def rounded (m : Memory) : Memory := ⟨m.bindings.map (Prod.map id Text.rounded)⟩

/-- A value is bound with round brackets. -/
theorem rounded_bind (m : Memory) (name : String) (value : List Char) :
    (m.bind name value).rounded = m.rounded.bind name (Text.rounded value) := rfl

variable (m : Memory)

/-- A binding has round brackets. -/
theorem binding?_rounded (name : String) :
    m.rounded.binding? name = (m.binding? name).map Text.rounded := by
  obtain ⟨bindings⟩ := m
  unfold binding? rounded
  induction bindings with
  | nil => rfl
  | cons entry rest ih =>
    obtain ⟨other, value⟩ := entry
    rw [List.map_cons, Prod.map_apply, id_eq, List.lookup_cons, List.lookup_cons]
    cases name == other with
    | true => rfl
    | false => exact ih

/-- The names of constants have no brackets. -/
theorem resolve?_rounded (name : String) :
    m.rounded.resolve? name = (m.resolve? name).map Text.rounded := by
  have hconstants : constants.all (fun c => Text.rounded c.engineName.toList ==
      c.engineName.toList) = true := by decide +kernel
  unfold resolve?
  rw [binding?_rounded]
  cases m.binding? name with
  | some value => rfl
  | none =>
    rw [Option.map_none]
    cases hconstant : constant? name with
    | none => rfl
    | some c =>
      have hc := List.all_eq_true.mp hconstants c (List.mem_of_find?_eq_some hconstant)
      dsimp only
      split
      · rfl
      · rw [Option.map_some, beq_iff_eq.mp hc]

/-- Atomic values have no brackets. -/
theorem isAtomic_rounded (value : List Char) : isAtomic (Text.rounded value) = isAtomic value := by
  have hatomic : Bracketless fun c => isWord c || c == '.' := by decide
  unfold isAtomic
  rw [Text.rounded, List.all_map, List.isEmpty_map]
  congr 2
  funext c
  exact apply_roundBracket hatomic c

/-- What is written for a word has round brackets. -/
theorem replacement_rounded (w : Text.Identifier) :
    m.rounded.replacement w = (m.replacement w).map Text.rounded := by
  unfold replacement
  split
  · rfl
  · rw [resolve?_rounded]
    cases m.resolve? w.text with
    | none => rfl
    | some value =>
      simp only [Option.map_some, isAtomic_rounded]
      split
      · rfl
      · simp only [Text.rounded, List.map_cons, List.map_append, List.map_nil]
        rfl

/-- What is written for the words of a text is the same but for its brackets. -/
theorem substitute_rounded (s : List Char) :
    m.rounded.substitute (Text.rounded s) = Text.rounded (m.substitute s) :=
  Text.replaceWords_rounded m.replacement_rounded s

private theorem splitAssignment?_of_ne {c d : Char} {s : List Char} (h : d ≠ '=') :
    splitAssignment? (c :: d :: s) = none := by
  unfold splitAssignment?
  split
  · rename_i heq
    cases heq
    exact absurd rfl h
  · rfl

/-- Neither the letter nor the equality stroke of an assignment is a bracket. -/
theorem splitAssignment?_rounded (s : List Char) :
    splitAssignment? (Text.rounded s) = (splitAssignment? s).map (Prod.map id Text.rounded) := by
  have hletter : Bracketless Char.isAlpha := by decide
  have hstroke : Bracketless fun c => '=' == c := by decide
  match s with
  | [] => rfl
  | [c] => rfl
  | c :: d :: value =>
    have hround : Text.rounded (c :: d :: value) =
        roundBracket c :: roundBracket d :: Text.rounded value := rfl
    rw [hround]
    by_cases hd : d = '='
    · subst hd
      have hempty : (Text.rounded value).isEmpty = value.isEmpty := List.isEmpty_map
      have hcontains : (Text.rounded value).contains '=' = value.contains '=' := by
        rw [List.contains_eq_any_beq, List.contains_eq_any_beq, Text.rounded, List.any_map]
        congr 1
        funext c
        exact apply_roundBracket hstroke c
      have hequals : roundBracket '=' = '=' := rfl
      simp only [splitAssignment?, hequals, apply_roundBracket hletter, hempty, hcontains]
      split
      · rename_i h
        rw [Bool.and_eq_true, Bool.and_eq_true] at h
        rw [roundBracket_eq_self hletter h.1.1]
        rfl
      · rfl
    · have hd' : roundBracket d ≠ '=' := by
        intro h
        have hsame := apply_roundBracket hstroke d
        rw [h] at hsame
        exact hd (beq_iff_eq.mp hsame.symm).symm
      rw [splitAssignment?_of_ne hd, splitAssignment?_of_ne hd']
      rfl

/-- The same outcome with round brackets. -/
def Outcome.rounded : Outcome → Outcome
  | assigned symbol value => assigned symbol (Text.rounded value)
  | substituted s => substituted (Text.rounded s)

/-- A rounded memory takes in the normal form of an expression as the memory takes in the
expression, but for the shape of brackets. -/
theorem apply_rounded (expression : String) :
    m.rounded.apply (Validation.normalize expression) =
      Prod.map Outcome.rounded rounded (m.apply expression) := by
  have hvisible : Text.dropBlanks (Validation.normalize expression).toList =
      Text.rounded (Text.dropBlanks expression.toList) := by
    rw [Validation.normalize, String.toList_ofList, Text.normalizeChars_eq_dropBlanks,
      Text.dropBlanks_dropBlanks, Text.dropBlanks_rounded]
  simp only [apply, hvisible, splitAssignment?_rounded]
  cases splitAssignment? (Text.dropBlanks expression.toList) with
  | none => simp only [Option.map_none, substitute_rounded, Prod.map_apply, Outcome.rounded]
  | some assignment =>
    obtain ⟨letter, value⟩ := assignment
    simp only [Option.map_some, Prod.map_apply, id_eq, substitute_rounded, Outcome.rounded,
      rounded_bind]

/-- Which words are unknown does not depend on brackets. -/
theorem unboundSymbols_rounded (expression : String) :
    m.rounded.unboundSymbols expression = m.unboundSymbols expression := by
  simp only [unboundSymbols, resolve?_rounded, Option.isSome_map]

end Memory

end Reckoner
