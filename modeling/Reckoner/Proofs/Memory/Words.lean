import Reckoner.Memory
import Reckoner.Proofs.Memory.Writing

/-!
# Substitution and the words of a text

The words of a text are those of its parts, if it is parted where no word goes on and no bracket
opens arguments. A value is written between two such places: behind a whole word no other one goes
on, the names of calls are kept, and brackets keep apart what they hold. So the words of a text in
which values are written are the words of the text, with the words of the values in their places.
-/

namespace Reckoner

namespace Text

open Token (isWord isWordStart startsWith)

variable {c : Char} {rest s r : List Char}

/-- A text goes on behind its first word, or behind its first character. -/
@[elab_as_elim]
theorem wordsInduction {P : List Char → Prop} (nil : P [])
    (word : ∀ c rest, isWordStart c = true → P (rest.dropWhile isWord) → P (c :: rest))
    (other : ∀ c rest, isWordStart c = false → P rest → P (c :: rest)) (s : List Char) : P s := by
  induction false, 0, s using pieces.induct with
  | case1 => exact nil
  | case2 f n c rest h name behind ih => exact word c rest h ih
  | case3 f n c rest h ih => exact other c rest (Bool.eq_false_iff.mpr h) ih

/-! ## Words -/

/-- The words of a text, and whether they are called. -/
def words (s : List Char) : List (String × Bool) :=
  (identifiers s).map fun w => (w.text, w.isCall)

/-- The word of a piece, and whether it is called. -/
def Piece.word? : Piece → Option (String × Bool)
  | word w => some (w.text, w.isCall)
  | other _ => none

theorem words_eq_filterMap (s : List Char) : words s = (piecesOf s).filterMap Piece.word? := by
  rw [words, identifiers, List.map_filterMap]
  congr 1
  funext p
  cases p <;> rfl

/-- What stands before a text does not matter for its words. -/
theorem filterMap_word?_pieces (s : List Char) (f f' : Bool) (n n' : Nat) :
    (pieces f n s).filterMap Piece.word? = (pieces f' n' s).filterMap Piece.word? := by
  induction s using wordsInduction generalizing f f' n n' with
  | nil => rw [pieces, pieces]
  | word c rest h ih =>
    rw [pieces_word h, pieces_word h]
    exact congrArg (_ :: ·) (ih _ _ _ _)
  | other c rest h ih =>
    rw [pieces_other h, pieces_other h]
    exact ih _ _ _ _

theorem words_nil : words [] = [] := by
  rw [words_eq_filterMap, piecesOf, pieces, List.filterMap_nil]

/-- A word that starts a text is the first one. -/
theorem words_word (h : isWordStart c = true) :
    words (c :: rest) =
      (String.ofList (c :: rest.takeWhile isWord), opensArguments (rest.dropWhile isWord)) ::
        words (rest.dropWhile isWord) := by
  rw [words_eq_filterMap, words_eq_filterMap, piecesOf, piecesOf, pieces_word h]
  exact congrArg (_ :: ·) (filterMap_word?_pieces _ _ _ _ _)

/-- A character that starts no word adds none. -/
theorem words_other (h : isWordStart c = false) : words (c :: rest) = words rest := by
  rw [words_eq_filterMap, words_eq_filterMap, piecesOf, piecesOf, pieces_other h]
  exact filterMap_word?_pieces _ _ _ _ _

/-! ## Parted texts -/

/-- The first word ends where it ended before, if it does not go on behind the text. -/
theorem takeWhile_isWord_append (hr : startsWith isWord r = false) (s : List Char) :
    (s ++ r).takeWhile isWord = s.takeWhile isWord := by
  induction s with
  | nil =>
    cases r with
    | nil => rfl
    | cons d r => exact List.takeWhile_cons_of_neg (Bool.eq_false_iff.mp hr)
  | cons d s ih => rw [List.cons_append, List.takeWhile_cons, List.takeWhile_cons, ih]

/-- In front of what goes on no word the rest behind a word is the same. -/
theorem dropWhile_isWord_append (hr : startsWith isWord r = false) (s : List Char) :
    (s ++ r).dropWhile isWord = s.dropWhile isWord ++ r := by
  induction s with
  | nil =>
    cases r with
    | nil => rfl
    | cons d r => exact List.dropWhile_cons_of_neg (Bool.eq_false_iff.mp hr)
  | cons d s ih =>
    rw [List.cons_append, List.dropWhile_cons, List.dropWhile_cons]
    split
    · exact ih
    · rfl

/-- In front of what opens no arguments a text opens the same ones. -/
theorem opensArguments_append (hr : opensArguments r = false) (s : List Char) :
    opensArguments (s ++ r) = opensArguments s := by
  cases s with
  | nil => exact hr
  | cons d s => rfl

/-- The words of a text are those of its parts, where no word goes on and no bracket opens
arguments. -/
theorem words_append (hword : startsWith isWord r = false) (hopens : opensArguments r = false)
    (s : List Char) : words (s ++ r) = words s ++ words r := by
  induction s using wordsInduction with
  | nil => rw [words_nil, List.nil_append, List.nil_append]
  | word c rest h ih =>
    rw [List.cons_append, words_word h, words_word h, takeWhile_isWord_append hword,
      dropWhile_isWord_append hword, opensArguments_append hopens, ih, List.cons_append]
  | other c rest h ih => rw [List.cons_append, words_other h, words_other h, ih]

/-- Brackets keep apart what they hold. -/
theorem words_bracketed (s r : List Char) :
    words ('(' :: s ++ [')'] ++ r) = words s ++ words r := by
  have hclosing : words (')' :: r) = words r := words_other (by decide)
  rw [List.cons_append, List.cons_append, words_other (by decide), List.append_assoc,
    List.singleton_append, words_append rfl rfl, hclosing]

/-- A whole word stays one where no other one goes on behind it. -/
theorem words_takeWhile (h : isWordStart c = true) (hr : startsWith isWord r = false) :
    words (c :: rest.takeWhile isWord ++ r) =
      (String.ofList (c :: rest.takeWhile isWord), opensArguments r) :: words r := by
  have hall : ∀ d ∈ rest.takeWhile isWord, isWord d = true :=
    List.all_eq_true.mp List.all_takeWhile
  have htake : r.takeWhile isWord = [] := takeWhile_isWord_append hr []
  have hdrop : r.dropWhile isWord = r := dropWhile_isWord_append hr []
  rw [List.cons_append, words_word h, List.takeWhile_append_of_pos hall,
    List.dropWhile_append_of_pos hall, htake, hdrop, List.append_nil]

/-- Behind a word the text goes on as it did, whatever is replaced. -/
theorem startsWith_replaceFrom (replacement : Identifier → Option (List Char)) (f : Bool) (n : Nat)
    (s : List Char) :
    startsWith isWord (replaceFrom replacement f n (s.dropWhile isWord)) = false ∧
      opensArguments (replaceFrom replacement f n (s.dropWhile isWord)) =
        opensArguments (s.dropWhile isWord) := by
  have hstart := startsWith_dropWhile_isWord s
  have hword := Token.startsWith_dropWhile isWord s
  generalize s.dropWhile isWord = behind at hstart hword
  cases behind with
  | nil =>
    rw [replaceFrom_nil]
    exact ⟨rfl, rfl⟩
  | cons d behind =>
    rw [replaceFrom_other f n replacement hstart]
    exact ⟨hword, rfl⟩

end Text

namespace Memory

open Text
open Token (isWord isWordStart startsWith)

variable (m : Memory)

/-- What comes in the place of a word: the words of its value, if it is not called and stands for
something, and else the word itself. -/
def inPlaceOf (word : String × Bool) : List (String × Bool) :=
  if word.2 then [word] else ((m.resolve? word.1).map words).getD [word]

/-- The words of what is written in the place of a word, and of a text that goes on behind it. -/
theorem words_replacement {w : Identifier} {r : List Char} {value : List Char}
    (hw : m.replacement w = some value) (hr : startsWith isWord r = false)
    (hopens : opensArguments r = w.isCall) :
    words (value ++ r) = m.inPlaceOf (w.text, w.isCall) ++ words r := by
  unfold replacement at hw
  split at hw
  · cases hw
  · rename_i hcall
    obtain ⟨v, hv, rfl⟩ := Option.map_eq_some_iff.mp hw
    have hplace : m.inPlaceOf (w.text, w.isCall) = words v := by
      rw [inPlaceOf, if_neg hcall, hv]
      rfl
    rw [hplace]
    split
    · exact words_append hr (hopens.trans (Bool.eq_false_iff.mpr hcall)) v
    · exact words_bracketed v r

/-- A word that is kept comes in its own place. -/
theorem inPlaceOf_of_kept {w : Identifier} (hw : m.replacement w = none) :
    m.inPlaceOf (w.text, w.isCall) = [(w.text, w.isCall)] := by
  unfold replacement at hw
  unfold inPlaceOf
  split at hw
  · rename_i hcall
    rw [if_pos hcall]
  · rename_i hcall
    rw [if_neg hcall, Option.map_eq_none_iff.mp hw]
    rfl

/-- The words of a text with values are those of the text, each replaced by what comes in its
place. -/
theorem words_substitute (s : List Char) :
    words (m.substitute s) = (words s).flatMap m.inPlaceOf := by
  have hfrom (f : Bool) (n : Nat) :
      words (replaceFrom m.replacement f n s) = (words s).flatMap m.inPlaceOf := by
    induction s using wordsInduction generalizing f n with
    | nil => rw [replaceFrom_nil, words_nil, List.flatMap_nil]
    | other c rest h ih => rw [replaceFrom_other f n _ h, words_other h, words_other h, ih]
    | word c rest h ih =>
      obtain ⟨hword, hopens⟩ := startsWith_replaceFrom m.replacement false
        (n + byteCount (c :: rest.takeWhile isWord)) rest
      rw [replaceFrom_word f n _ h, words_word h, List.flatMap_cons, ← ih false]
      cases hw : m.replacement ⟨c :: rest.takeWhile isWord, n,
          opensArguments (rest.dropWhile isWord), f⟩ with
      | some value => exact m.words_replacement hw hword hopens
      | none =>
        have hkept := m.inPlaceOf_of_kept hw
        rw [Option.getD_none, words_takeWhile h hword, hopens]
        exact congrArg (· ++ _) hkept.symm
  exact hfrom false 0

/-- Whatever a memory holds, it leaves the words of a text whole that is no assignment: names of
calls and names that stand for nothing are kept, and each other word is replaced by the words of its
value. -/
theorem words_of_apply {t : String} (h : splitAssignment? (dropBlanks t.toList) = none) :
    ∃ s, (m.apply t).1 = .substituted s ∧
      words s = (words (dropBlanks t.toList)).flatMap m.inPlaceOf := by
  refine ⟨m.substitute (dropBlanks t.toList), ?_, m.words_substitute _⟩
  simp only [apply, h]

/-- Values with a number and with a call, behind a number, between brackets and letters that are not
in ASCII, and beside a call and a word that have the letter in their names. -/
theorem words_of_apply_spliced :
    let m := ((initial.apply "a = y1.5").2.apply "b=Sin(a)/2z").2
    splitAssignment? (dropBlanks "2a+é[b]*b [ a1 ] -b.a∞PI".toList) = none ∧
      ∃ s, (m.apply "2a+é[b]*b [ a1 ] -b.a∞PI").1 = .substituted s ∧
        words s = [("y1", false), ("Sin", true), ("y1", false), ("z", false), ("b", true),
          ("a1", false), ("Sin", true), ("y1", false), ("z", false), ("y1", false),
          ("Pi", false)] := by
  intro m
  have h : splitAssignment? (dropBlanks "2a+é[b]*b [ a1 ] -b.a∞PI".toList) = none := by decide
  obtain ⟨s, hs, hwords⟩ := m.words_of_apply h
  have hread : words (dropBlanks "2a+é[b]*b [ a1 ] -b.a∞PI".toList) =
      [("a", false), ("b", false), ("b", true), ("a1", false), ("b", false), ("a", false)] ++
        [("PI", false)] := by decide +kernel
  have hletters : [("a", false), ("b", false), ("b", true), ("a1", false), ("b", false),
      ("a", false)].flatMap m.inPlaceOf = [("y1", false), ("Sin", true), ("y1", false),
        ("z", false), ("b", true), ("a1", false), ("Sin", true), ("y1", false), ("z", false),
        ("y1", false)] := by decide +kernel
  have hconstant : Vocabulary.constant? "PI" = some ⟨"pi", some "Pi"⟩ := by
    have hcapital : "PI".toLower = "pi" := by decide +kernel
    have hsmall : "pi".toLower = "pi" := by decide +kernel
    exact List.find?_cons_of_pos (by rw [Vocabulary.sameName, hcapital, hsmall, beq_self_eq_true])
  have hnative : m.inPlaceOf ("PI", false) = [("Pi", false)] := by
    have hunbound : m.binding? "PI" = none := by decide +kernel
    have hresolve : m.resolve? "PI" = some "Pi".toList := by
      rw [resolve?, hunbound, hconstant]
      rfl
    rw [inPlaceOf, hresolve]
    decide +kernel
  refine ⟨h, s, hs, hwords.trans ?_⟩
  rw [hread, List.flatMap_append, hletters, List.flatMap_singleton, hnative]
  rfl

end Memory

end Reckoner
