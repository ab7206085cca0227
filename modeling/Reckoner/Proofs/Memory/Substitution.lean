import Mathlib.Data.List.Basic
import Reckoner.Proofs.Memory.Atoms
import Reckoner.Proofs.Memory.Reading

/-!
# Substitution in texts and in trees

A letter is bound to a text, and the text is written in the place of the letter in another one.
What comes out is read as the tree of the second text with the tree of the first in the place of
the symbol, if the value fits wherever the letter stands and no number hides the letter.
-/

namespace Reckoner

open Reckoner.Expr Grammar

namespace Text

variable {s : List Char}

/-- What words are replaced by matters for the words of the text only. -/
theorem replaceWords_congr {f g : Identifier → Option (List Char)}
    (h : ∀ w ∈ identifiers s, f w = g w) : replaceWords f s = replaceWords g s := by
  refine List.flatMap_congr fun p hp => ?_
  cases p with
  | word w => exact congrArg (Option.getD · w.name) (h w (mem_identifiers.mpr hp))
  | other c => rfl

end Text

namespace Memory

/-- No word is known from the start, unless it is called. -/
def Unknown (s : List Char) : Prop :=
  ∀ w ∈ Text.identifiers s, w.isCall = false → initial.resolve? w.text = none

/-- The letter can be bound to the first text, and be replaced in the second. -/
structure Replaceable (letter : Char) (v t : String) : Prop where
  /-- A letter of ASCII. -/
  isAlpha : letter.isAlpha = true
  /-- The letter is not known from the start. -/
  free : initial.resolve? (String.singleton letter) = none
  /-- The value has no blanks. -/
  value_blank : ∀ c ∈ v.toList, Text.isBlank c = false
  /-- The value has no equality stroke. -/
  value_stroke : '=' ∉ v.toList
  /-- The value has no names that are known from the start. -/
  value_unknown : Unknown v.toList
  /-- The text has no blanks. -/
  text_blank : ∀ c ∈ t.toList, Text.isBlank c = false
  /-- The text is no assignment. -/
  text_assignment : splitAssignment? t.toList = none
  /-- The text has no names that are known from the start. -/
  text_unknown : Unknown t.toList

instance (s : List Char) : Decidable (Unknown s) :=
  inferInstanceAs (Decidable (∀ w ∈ Text.identifiers s, _))

instance (letter : Char) (v t : String) : Decidable (Replaceable letter v t) :=
  decidable_of_iff (letter.isAlpha = true ∧ initial.resolve? (String.singleton letter) = none ∧
      v.toList.all (!Text.isBlank ·) = true ∧ '=' ∉ v.toList ∧ Unknown v.toList ∧
      t.toList.all (!Text.isBlank ·) = true ∧ splitAssignment? t.toList = none ∧
      Unknown t.toList) (by
    simp only [List.all_eq_true, Bool.not_eq_true']
    exact ⟨fun ⟨h₁, h₂, h₃, h₄, h₅, h₆, h₇, h₈⟩ => ⟨h₁, h₂, h₃, h₄, h₅, h₆, h₇, h₈⟩,
      fun ⟨h₁, h₂, h₃, h₄, h₅, h₆, h₇, h₈⟩ => ⟨h₁, h₂, h₃, h₄, h₅, h₆, h₇, h₈⟩⟩)

/-- What is written in the place of the letter. -/
def filling (letter : Char) (v : String) (value : Expr) : Filling :=
  ⟨String.singleton letter, isAtomic v.toList, (Token.scanAll v.toList).1, value⟩

/-- The value fits wherever the letter stands, and no number hides the letter. -/
structure Fits (letter : Char) (v t : String) (value : Expr) : Prop where
  /-- No number hides the letter. -/
  shown : Token.Shown letter t.toList
  /-- The value fits. -/
  allFit : (filling letter v value).allFit .start (Token.scanAll t.toList).1 = true

instance (letter : Char) (v t : String) (value : Expr) : Decidable (Fits letter v t value) :=
  decidable_of_iff ((∀ m ∈ Token.numerals t.toList, Token.hides letter m = false) ∧
      (filling letter v value).allFit .start (Token.scanAll t.toList).1 = true)
    ⟨fun ⟨h₁, h₂⟩ => ⟨h₁, h₂⟩, fun ⟨h₁, h₂⟩ => ⟨h₁, h₂⟩⟩

/-- Once the letter is bound to the first text, the second one becomes a text whose tree agrees
with the tree in which the value takes the place of the symbol, or which nests too deeply. -/
def SubstitutesTree (letter : Char) (v t : String) (value tree : Expr) : Prop :=
  ∃ s, ((initial.apply (String.ofList (letter :: '=' :: v.toList))).2.apply t).1 =
      .substituted s ∧
    (parse (String.ofList s) = .error .nestedTooDeeply ∨
      ∃ e, parse (String.ofList s) = .ok e ∧
        Agrees e (Expr.substitute (String.singleton letter) value tree))

variable {letter : Char} {v t : String} {value tree : Expr} {s : List Char}

/-- The name stands for what was bound last, and any other for what it did before. -/
theorem resolve?_bind (m : Memory) (name other : String) (v : List Char) :
    (m.bind name v).resolve? other = if other = name then some v else m.resolve? other := by
  unfold resolve?
  rw [binding?_bind]
  by_cases h : other = name
  · rw [if_pos h, if_pos h]
  · rw [if_neg h, if_neg h]

/-- A text without known names stays as it is. -/
theorem Unknown.substitute_eq (h : Unknown s) : initial.substitute s = s := by
  refine Eq.trans (Text.replaceWords_congr fun w hw => ?_) (Text.replaceWords_none s)
  unfold replacement
  split
  · rfl
  · rename_i hcall
    rw [h w hw (by simpa using hcall), Option.map_none]

/-- What the memory writes for a word is what the filling writes. -/
theorem replacement_bind {w : Text.Identifier}
    (hw : w.isCall = false → initial.resolve? w.text = none) :
    (initial.bind (String.singleton letter) v.toList).replacement w =
      (filling letter v value).written? v.toList w := by
  unfold replacement Filling.written?
  cases hcall : w.isCall with
  | true => rfl
  | false =>
    rw [resolve?_bind, hw hcall, if_neg Bool.false_ne_true, Bool.not_false, Bool.true_and]
    have hname : (filling letter v value).name = String.singleton letter := rfl
    by_cases h : w.text = String.singleton letter
    · rw [if_pos h, hname, if_pos (beq_iff_eq.mpr h)]
      rfl
    · rw [if_neg h, hname, if_neg (mt beq_iff_eq.mp h)]
      rfl

/-- The assignment binds the letter to the text. -/
theorem Replaceable.apply_assignment (h : Replaceable letter v t) (hne : v.toList ≠ []) :
    (initial.apply (String.ofList (letter :: '=' :: v.toList))).2 =
      initial.bind (String.singleton letter) v.toList := by
  have hblank : ∀ c ∈ letter :: '=' :: v.toList, Text.isBlank c = false := by
    intro c hc
    rcases List.mem_cons.mp hc with rfl | hc
    · refine Token.isBlank_of_toNat ?_
      rcases Token.toNat_of_isAlpha h.isAlpha with hletter | hletter <;> omega
    · rcases List.mem_cons.mp hc with rfl | hc
      · decide
      · exact h.value_blank c hc
  have hsplit : splitAssignment? (letter :: '=' :: v.toList) = some (letter, v.toList) := by
    refine if_pos ?_
    rw [h.isAlpha, List.isEmpty_eq_false_iff.mpr hne]
    simpa using h.value_stroke
  simp only [apply, String.toList_ofList, Text.dropBlanks_eq_self hblank, hsplit,
    h.value_unknown.substitute_eq]

/-- The other text has the value in the place of the letter. -/
theorem Replaceable.apply_text (h : Replaceable letter v t) :
    ((initial.bind (String.singleton letter) v.toList).apply t).1 =
      .substituted ((filling letter v value).fillPieces v.toList false 0 t.toList) := by
  simp only [apply, Text.dropBlanks_eq_self h.text_blank, h.text_assignment]
  exact congrArg Outcome.substituted
    (Text.replaceWords_congr fun w hw => replacement_bind (h.text_unknown w hw))

/-- Where the value fits, substitution in the text agrees with substitution in the tree. -/
theorem substitutesTree_of_fits (h : Replaceable letter v t) (hv : parse v = .ok value)
    (ht : parse t = .ok tree) (hf : Fits letter v t value) :
    SubstitutesTree letter v t value tree := by
  obtain ⟨vs, hvs, hdv, -⟩ := derives_of_parse hv
  obtain ⟨ts, hts, hdt, -⟩ := derives_of_parse ht
  have htokens : (filling letter v value).tokens = vs := congrArg Prod.fst hvs
  have hsound : (filling letter v value).Sound := by
    refine ⟨?_, fun ha => ?_⟩
    · rw [htokens]
      exact hdv
    · rw [htokens]
      exact Filling.atom_of_isAtomic hv hvs hdv ha
  have hwritten : (filling letter v value).Written v.toList letter :=
    ⟨rfl, by rw [htokens, hvs], h.value_stroke, hsound⟩
  have hne := hwritten.ne_nil
  have hfit := hf.allFit
  rw [hts] at hfit
  have hscan := hwritten.scanAll_fillPieces (f := false) (n := 0) h.text_blank hts hf.shown
    (hdt.spaced trivial rfl).1 (fun _ => rfl) hfit
  obtain ⟨e, hagrees, hderives⟩ := hsound.derives_splice hdt hfit
  refine ⟨(filling letter v value).fillPieces v.toList false 0 t.toList, ?_, ?_⟩
  · rw [h.apply_assignment hne]
    exact h.apply_text
  · rcases parse_of_derives (by rw [String.toList_ofList, hscan]) hderives with hok | herror
    · exact .inr ⟨e, hok, hagrees⟩
    · exact .inl herror

/-- A number in front of a name fits into sums, products and arguments. -/
theorem substitutesTree_of_product :
    ∃ value tree, parse "2x" = .ok value ∧ parse "3s+s*s-f(s)/5" = .ok tree ∧
      SubstitutesTree 's' "2x" "3s+s*s-f(s)/5" value tree := by
  have hfits : (parse "2x").toOption.map (fun e => decide (Fits 's' "2x" "3s+s*s-f(s)/5" e)) =
      some true := by decide +kernel
  have htree : (parse "3s+s*s-f(s)/5").isOk = true := by decide +kernel
  cases hv : parse "2x" with
  | error e =>
    rw [hv] at hfits
    cases hfits
  | ok value =>
    cases ht : parse "3s+s*s-f(s)/5" with
    | error e =>
      rw [ht] at htree
      cases htree
    | ok tree =>
      rw [hv] at hfits
      exact ⟨value, tree, rfl, rfl, substitutesTree_of_fits (by decide +kernel) hv ht
        (of_decide_eq_true (Option.some.inj hfits))⟩

/-! ## Misfits -/

/-- The text that comes out, as an expression. -/
def outcome (letter : Char) (v t : String) : Except ParseError Expr :=
  parse ((initial.apply (String.ofList (letter :: '=' :: v.toList))).2.apply t).1.text

/-- The tree with the value in the place of the symbol, if both texts are expressions. -/
def substituted? (letter : Char) (v t : String) : Option Expr := do
  return Expr.substitute (String.singleton letter) (← (parse v).toOption) (← (parse t).toOption)

/-- The text comes out with another value than the tree, or as no expression. -/
def differs (i : Interpretation) (letter : Char) (v t : String) : Bool :=
  match outcome letter v t, substituted? letter v t with
  | .ok e, some e' => i.value e != i.value e'
  | .error .nestedTooDeeply, _ => false
  | .error _, some _ => true
  | _, none => false

/-- Where the values differ, the text does not agree with the tree. -/
theorem not_substitutesTree_of_differs {i : Interpretation} (h : differs i letter v t = true) :
    ∃ value tree, parse v = .ok value ∧ parse t = .ok tree ∧
      ¬ SubstitutesTree letter v t value tree := by
  have hsome : substituted? letter v t ≠ none := by
    intro hnone
    rw [differs, hnone] at h
    split at h <;> simp_all only [reduceCtorEq, Bool.false_eq_true]
  cases hv : parse v with
  | error e =>
    refine absurd ?_ hsome
    simp only [substituted?, hv]
    rfl
  | ok value =>
    cases ht : parse t with
    | error e =>
      refine absurd ?_ hsome
      simp only [substituted?, hv, ht]
      rfl
    | ok tree =>
      refine ⟨value, tree, rfl, rfl, fun hs => ?_⟩
      obtain ⟨s, hs, hparse⟩ := hs
      have hout : outcome letter v t = parse (String.ofList s) := by rw [outcome, hs]; rfl
      have hsub : substituted? letter v t =
          some (Expr.substitute (String.singleton letter) value tree) := by
        simp only [substituted?, hv, ht]
        rfl
      rw [differs, hout, hsub] at h
      rcases hparse with herror | ⟨e, he, hagrees⟩
      · rw [herror] at h
        cases h
      · rw [he] at h
        exact bne_iff_ne.mp h (hagrees i)

/-- Symbols are two, approximate numbers seven, powers those of integers, all else is zero. -/
def sample : Interpretation where
  symbol _ := 2
  real _ := 7
  boolean _ := 0
  power a b := if b.den = 1 then a ^ b.num else 0
  compare _ _ _ := 0
  call _ _ := 0
  list _ := 0

/-- A value that does not fit, or a number that hides the letter, of each kind. -/
def misfits : List (Char × String × String) :=
  [('s', "2", "(x)s"), ('s', "2x", "(y)s"), ('s', "2x", "a/s"), ('s', "2x", "s^2"),
    ('s', "2E", "s-x"), ('s', "1+2", "(x)s"), ('s', "(y)", "(s)s"), ('s', "2", "(s)(x)"),
    ('E', "3", "2E-5"), ('s', "3", "2E5s")]

/-- Each kind of misfit changes the value of some tree. -/
theorem differs_of_misfit : ∀ m ∈ misfits, Replaceable m.1 m.2.1 m.2.2 ∧
    differs sample m.1 m.2.1 m.2.2 = true := by decide +kernel

/-- No misfit comes out as the tree. -/
theorem not_substitutesTree_of_misfit {m : Char × String × String} (hm : m ∈ misfits) :
    Replaceable m.1 m.2.1 m.2.2 ∧ ∃ value tree, parse m.2.1 = .ok value ∧
      parse m.2.2 = .ok tree ∧ ¬ SubstitutesTree m.1 m.2.1 m.2.2 value tree := by
  have h := differs_of_misfit m hm
  exact ⟨h.1, not_substitutesTree_of_differs h.2⟩

/-- The square of the letter comes out as `2x^2` where it is bound to `2x`. -/
theorem substitution_misses_grouping :
    ¬ ∀ (letter : Char) (v t : String) (value tree : Expr), Replaceable letter v t →
      parse v = .ok value → parse t = .ok tree → SubstitutesTree letter v t value tree := by
  intro hall
  obtain ⟨hr, value, tree, hv, ht, hn⟩ :=
    not_substitutesTree_of_misfit (m := ('s', "2x", "s^2")) (by decide)
  exact hn (hall 's' "2x" "s^2" value tree hr hv ht)

end Memory

end Reckoner
