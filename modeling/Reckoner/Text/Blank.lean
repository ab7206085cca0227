/-!
# Blank characters

A character is blank when it has the Unicode property `White_Space`. Blank text
separates tokens and carries no meaning of its own, so it can be trimmed from
the ends of a text or removed altogether.
-/

namespace Reckoner.Text

/-- The twenty-five characters with the property `White_Space`. -/
def isBlank (c : Char) : Bool :=
  let n := c.toNat
  (0x09 ≤ n && n ≤ 0x0D) || n == 0x20 || n == 0x85 || n == 0xA0 || n == 0x1680 ||
    (0x2000 ≤ n && n ≤ 0x200A) || n == 0x2028 || n == 0x2029 || n == 0x202F ||
    n == 0x205F || n == 0x3000

/-- Remove every blank character. -/
def dropBlanks (s : List Char) : List Char :=
  s.filter fun c => !isBlank c

/-- Nothing blank survives. -/
theorem isBlank_of_mem_dropBlanks {s : List Char} {c : Char} (h : c ∈ dropBlanks s) :
    isBlank c = false := by
  simpa using (List.mem_filter.mp h).2

/-- Without blanks there are none to remove. -/
theorem dropBlanks_eq_self {s : List Char} (h : ∀ c ∈ s, isBlank c = false) :
    dropBlanks s = s := by
  refine List.filter_eq_self.mpr fun c hc => ?_
  rw [h c hc, Bool.not_false]

/-- A second removal finds nothing to remove. -/
theorem dropBlanks_dropBlanks (s : List Char) : dropBlanks (dropBlanks s) = dropBlanks s := by
  simp only [dropBlanks, List.filter_filter, Bool.and_self]

/-- Blanks are removed from each part of a text on its own. -/
theorem dropBlanks_append (s t : List Char) :
    dropBlanks (s ++ t) = dropBlanks s ++ dropBlanks t := by
  simp only [dropBlanks, List.filter_append]

/-- Remove the blank characters at both ends. -/
def trimBlanks (s : List Char) : List Char :=
  ((s.dropWhile isBlank).reverse.dropWhile isBlank).reverse

/-- A text without visible characters. -/
def allBlank (s : List Char) : Bool := s.all isBlank

end Reckoner.Text
