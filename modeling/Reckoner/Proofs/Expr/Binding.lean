import Mathlib.Data.Finset.Basic
import Reckoner.Engine.Value

/-!
# Substitution binds

To replace a symbol by a tree takes the symbol away and brings the symbols of the tree along. Where
the tree has a value, the symbol is then bound to it: what comes out has the value that the first
tree has under the binding, which hides a constant of the same name and leaves calls of that name
alone.
-/

namespace Reckoner.Expr

variable (name : String) (v : Expr)

/-! ## Symbols -/

mutual

/-- A symbol of the result is another symbol of the tree, or comes with the value. -/
theorem mem_symbolList_substitute {other : String} : (e : Expr) →
    (other ∈ symbolList (substitute name v e) ↔
      other ∈ symbolList e ∧ other ≠ name ∨ name ∈ symbolList e ∧ other ∈ symbolList v)
  | exact _ | real _ | boolean _ => by
    change other ∈ [] ↔ other ∈ [] ∧ other ≠ name ∨ name ∈ [] ∧ other ∈ symbolList v
    simp only [List.not_mem_nil, false_and, or_self]
  | symbol x => by
    change _ ↔ other ∈ [x] ∧ other ≠ name ∨ name ∈ [x] ∧ other ∈ symbolList v
    rw [substitute, List.mem_singleton, List.mem_singleton]
    by_cases hx : x = name
    · rw [if_pos hx, hx]
      simp only [and_not_self_iff, false_or, true_and]
    · rw [if_neg hx]
      change other ∈ [x] ↔ _
      rw [List.mem_singleton]
      constructor
      · rintro rfl
        exact .inl ⟨rfl, hx⟩
      · rintro (⟨h, -⟩ | ⟨h, -⟩)
        · exact h
        · exact absurd h.symm hx
  | neg a => mem_symbolList_substitute a
  | binary _ a b | compare _ a b => by
    change other ∈ symbolList (substitute name v a) ++ symbolList (substitute name v b) ↔
      other ∈ symbolList a ++ symbolList b ∧ other ≠ name ∨
        name ∈ symbolList a ++ symbolList b ∧ other ∈ symbolList v
    simp only [List.mem_append, mem_symbolList_substitute a, mem_symbolList_substitute b,
      or_and_right]
    exact or_or_or_comm
  | call _ as | list as => mem_symbolListAll_substituteAll as

/-- The names after a substitution in each tree of a list. -/
theorem mem_symbolListAll_substituteAll {other : String} : (as : List Expr) →
    (other ∈ symbolListAll (substituteAll name v as) ↔
      other ∈ symbolListAll as ∧ other ≠ name ∨ name ∈ symbolListAll as ∧ other ∈ symbolList v)
  | [] => by
    change other ∈ [] ↔ other ∈ [] ∧ other ≠ name ∨ name ∈ [] ∧ other ∈ symbolList v
    simp only [List.not_mem_nil, false_and, or_self]
  | a :: as => by
    change other ∈ symbolList (substitute name v a) ++ symbolListAll (substituteAll name v as) ↔
      other ∈ symbolList a ++ symbolListAll as ∧ other ≠ name ∨
        name ∈ symbolList a ++ symbolListAll as ∧ other ∈ symbolList v
    simp only [List.mem_append, mem_symbolList_substitute a, mem_symbolListAll_substituteAll as,
      or_and_right]
    exact or_or_or_comm

end

/-- The symbol goes, and where it stood the symbols of the value come. -/
theorem symbols_substitute (e : Expr) :
    (substitute name v e).symbols.toFinset = e.symbols.toFinset.erase name ∪
      if name ∈ e.symbols then v.symbols.toFinset else ∅ := by
  ext other
  rw [List.mem_toFinset, mem_symbols, mem_symbolList_substitute, Finset.mem_union,
    Finset.mem_erase, List.mem_toFinset, mem_symbols, and_comm]
  refine or_congr_right ?_
  by_cases hname : name ∈ e.symbols
  · rw [if_pos hname, List.mem_toFinset, mem_symbols]
    exact and_iff_right (mem_symbols.mp hname)
  · rw [if_neg hname]
    exact iff_of_false (fun h => hname (mem_symbols.mpr h.1)) (Finset.notMem_empty other)

/-! ## Values -/

variable {name v} {x : Float}

/-- A symbol has the value it is bound to, or else that of the constant. -/
theorem value?_substitute_symbol (h : value? none v = some x) (other : String) :
    value? none (substitute name v (symbol other)) = value? (some (name, x)) (symbol other) := by
  rw [substitute, value?, symbolValue?]
  by_cases hother : other = name
  · rw [if_pos hother, if_pos hother.symm, h]
  · rw [if_neg hother, if_neg (Ne.symm hother), value?, symbolValue?]

mutual

/-- The value of the result is the value under the binding. -/
theorem value?_substitute (h : value? none v = some x) : (e : Expr) →
    value? none (substitute name v e) = value? (some (name, x)) e
  | exact _ | real _ | boolean _ => by rw [substitute, value?, value?]
  | compare _ _ _ | list _ => by rw [substitute, value?, value?]
  | symbol other => value?_substitute_symbol h other
  | neg a => by rw [substitute, value?, value?, value?_substitute h a]
  | binary _ a b => by
    rw [substitute, value?, value?, value?_substitute h a, value?_substitute h b]
  | call _ as => by rw [substitute, value?, value?, values?_substituteAll h as]

/-- A substitution in a list has the values under the binding. -/
theorem values?_substituteAll (h : value? none v = some x) : (as : List Expr) →
    values? none (substituteAll name v as) = values? (some (name, x)) as
  | [] => by rw [substituteAll, values?, values?]
  | a :: as => by
    rw [substituteAll, values?, values?, value?_substitute h a, values?_substituteAll h as]

end

/-- To replace a name by a tree binds it: the symbols are those of the first tree without the name,
joined by those of the second where the name stood, and the value is that of the first tree with the
name bound to the value of the second. -/
theorem substitute_binds (e v : Expr) (name : String) :
    (substitute name v e).symbols.toFinset = (e.symbols.toFinset.erase name ∪
      if name ∈ e.symbols then v.symbols.toFinset else ∅) ∧
    ∀ x, value? none v = some x →
      value? none (substitute name v e) = value? (some (name, x)) e :=
  ⟨symbols_substitute name v e, fun _ h => value?_substitute h e⟩

/-- A constant is bound to a value with symbols of its own, which are constants too; it is also the
name of a call. -/
theorem substitute_binds_constant :
    value? none (binary .add (symbol "Pi") (exact ⟨1, 2⟩)) =
        some (Numeric.pi + Fraction.toFloat ⟨1, 2⟩) ∧
      (substitute "E" (binary .add (symbol "Pi") (exact ⟨1, 2⟩))
        (binary .multiply (symbol "E") (call "E" [symbol "t"]))).symbols.toFinset =
          {"Pi", "t"} ∧
      value? none (substitute "E" (binary .add (symbol "Pi") (exact ⟨1, 2⟩))
        (binary .multiply (symbol "E") (call "Exp" [symbol "E"]))) =
          value? (some ("E", Numeric.pi + Fraction.toFloat ⟨1, 2⟩))
            (binary .multiply (symbol "E") (call "Exp" [symbol "E"])) := by
  have hvalue : value? none (binary .add (symbol "Pi") (exact ⟨1, 2⟩)) =
      some (Numeric.pi + Fraction.toFloat ⟨1, 2⟩) := rfl
  obtain ⟨hsymbols, -⟩ := substitute_binds (binary .multiply (symbol "E") (call "E" [symbol "t"]))
    (binary .add (symbol "Pi") (exact ⟨1, 2⟩)) "E"
  obtain ⟨-, hbound⟩ := substitute_binds (binary .multiply (symbol "E") (call "Exp" [symbol "E"]))
    (binary .add (symbol "Pi") (exact ⟨1, 2⟩)) "E"
  refine ⟨hvalue, ?_, hbound _ hvalue⟩
  rw [hsymbols]
  decide

end Reckoner.Expr
