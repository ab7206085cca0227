import Reckoner.Proofs.Memory.Brackets
import Reckoner.Proofs.Memory.Words

/-!
# Symbols that a memory leaves

The symbols of a text are its words that are neither called nor known to everyone. A memory reads
the words of a text once, and does not look at what it writes in their places. So a symbol of a
value is left in the text, and whether it counts as unbound depends on the bindings at that time,
not on those under which the value was taken in.
-/

namespace Reckoner

/-- The engine's name of a constant is the name of a constant as well. -/
theorem Vocabulary.isConstant_engineName {k : Constant} (hk : k ∈ constants) :
    isConstant k.engineName = true := by
  have hnames : ∀ k ∈ constants, ∃ c ∈ constants, c.name = k.engineName := by decide
  obtain ⟨c, hc, hname⟩ := hnames k hk
  rw [isConstant, constant?, List.find?_isSome]
  exact ⟨c, hc, by rw [hname, sameName, beq_self_eq_true]⟩

namespace Text

/-- The words of a text that are neither called nor constants or truth values. -/
def symbols (s : List Char) : List String :=
  (words s).filterMap fun w =>
    if w.2 || Vocabulary.isConstant w.1 || Vocabulary.isKeyword w.1 then none else some w.1

variable {s : List Char} {x : String}

/-- Symbols are the words that are neither called nor known. -/
theorem mem_symbols : x ∈ symbols s ↔
    (x, false) ∈ words s ∧ Vocabulary.isConstant x = false ∧ Vocabulary.isKeyword x = false := by
  simp only [symbols, List.mem_filterMap, Prod.exists]
  constructor
  · rintro ⟨name, isCall, hw, hname⟩
    split at hname
    · cases hname
    · rename_i hknown
      cases hname
      simp only [Bool.or_eq_true, not_or, Bool.not_eq_true] at hknown
      obtain ⟨⟨rfl, hconstant⟩, hkeyword⟩ := hknown
      exact ⟨hw, hconstant, hkeyword⟩
  · rintro ⟨hw, hconstant, hkeyword⟩
    exact ⟨x, false, hw, by rw [hconstant, hkeyword]; rfl⟩

/-- The engine's names have no symbols. -/
theorem symbols_engineName {k : Vocabulary.Constant} (hk : k ∈ Vocabulary.constants) :
    symbols k.engineName.toList = [] := by
  have hwords : ∀ k ∈ Vocabulary.constants,
      words k.engineName.toList = [(k.engineName, false)] := by decide +kernel
  refine List.eq_nil_iff_forall_not_mem.mpr fun x hx => ?_
  obtain ⟨hword, hconstant, -⟩ := mem_symbols.mp hx
  rw [hwords k hk, List.mem_singleton] at hword
  cases hword
  rw [Vocabulary.isConstant_engineName hk] at hconstant
  cases hconstant

/-- The shape of brackets does not matter for the words. -/
theorem words_rounded (s : List Char) : words (rounded s) = words s := by
  have hword : Piece.word? ∘ Piece.rounded = Piece.word? := by
    funext p
    cases p <;> rfl
  rw [words_eq_filterMap, words_eq_filterMap, piecesOf, piecesOf, pieces_rounded,
    List.filterMap_map, hword]

/-- Nor for the symbols; without blanks, the normal form has those of the text. -/
theorem symbols_normalize (h : ∀ c ∈ s, isBlank c = false) :
    symbols (Validation.normalize (String.ofList s)).toList = symbols s := by
  rw [Validation.normalize, String.toList_ofList, String.toList_ofList,
    normalizeChars_eq_dropBlanks, dropBlanks_rounded, dropBlanks_eq_self h, symbols, words_rounded,
    symbols]

end Text

namespace Memory

open Text

variable (m : Memory) {s : List Char} {name : String} {value : List Char}

/-! ## Values without blanks -/

/-- No value has a blank. -/
def Blankless : Prop :=
  ∀ name value, m.binding? name = some value → ∀ c ∈ value, isBlank c = false

variable {m}

/-- The constants are written without blanks. -/
theorem blankless_initial : initial.Blankless := by
  intro name value h
  have hall : initial.bindings.all (fun b => b.2.all fun c => isBlank c == false) = true := by
    decide +kernel
  obtain ⟨before, behind, hsplit, -⟩ := List.lookup_eq_some_iff.mp h
  have hmem : (name, value) ∈ initial.bindings :=
    hsplit ▸ List.mem_append_right _ List.mem_cons_self
  intro c hc
  exact eq_of_beq (List.all_eq_true.mp (List.all_eq_true.mp hall _ hmem) c hc)

/-- Nor has what a word stands for. -/
theorem Blankless.of_resolve? (hm : m.Blankless) (h : m.resolve? name = some value) :
    ∀ c ∈ value, isBlank c = false := by
  have hconstants : Vocabulary.constants.all (fun k =>
      k.engineName.toList.all fun c => isBlank c == false) = true := by decide +kernel
  unfold resolve? at h
  split at h
  · rename_i value' hbound
    cases h
    exact hm name value hbound
  · split at h
    · rename_i k hk
      split at h
      · cases h
      · cases h
        have hname := List.all_eq_true.mp hconstants k (List.mem_of_find?_eq_some hk)
        exact fun c hc => eq_of_beq (List.all_eq_true.mp hname c hc)
    · cases h

/-- What is written for a word has no blanks. -/
theorem Blankless.replacement (hm : m.Blankless) {w : Identifier}
    (h : m.replacement w = some value) : ∀ c ∈ value, isBlank c = false := by
  unfold Memory.replacement at h
  split at h
  · cases h
  · obtain ⟨v, hv, rfl⟩ := Option.map_eq_some_iff.mp h
    have hvalue := hm.of_resolve? hv
    split
    · exact hvalue
    · intro c hc
      rcases List.mem_append.mp hc with hc | hc
      · rcases List.mem_cons.mp hc with rfl | hc
        · decide
        · exact hvalue c hc
      · obtain rfl := List.mem_singleton.mp hc
        decide

/-- A text without blanks has none with values. -/
theorem Blankless.substitute (hm : m.Blankless) (hs : ∀ c ∈ s, isBlank c = false) :
    ∀ c ∈ m.substitute s, isBlank c = false := by
  intro c hc
  have hpieces := flatMap_chars_pieces false 0 s
  obtain ⟨p, hp, hcp⟩ := List.mem_flatMap.mp hc
  have hkept (hc : c ∈ p.chars) : isBlank c = false :=
    hs c (hpieces ▸ List.mem_flatMap.mpr ⟨p, hp, hc⟩)
  cases p with
  | other d => exact hkept hcp
  | word w =>
    have hword : c ∈ (m.replacement w).getD w.name := hcp
    cases hw : m.replacement w with
    | none =>
      rw [hw] at hword
      exact hkept hword
    | some value =>
      rw [hw] at hword
      exact hm.replacement hw c hword

/-- Taking in an expression keeps values without blanks. -/
theorem Blankless.apply (hm : m.Blankless) (expression : String) :
    (m.apply expression).2.Blankless := by
  have hs : ∀ c ∈ dropBlanks expression.toList, isBlank c = false :=
    fun _ => isBlank_of_mem_dropBlanks
  unfold Memory.apply
  dsimp only
  split
  · rename_i symbol value hsplit
    intro name bound hbound
    rw [binding?_bind] at hbound
    split at hbound
    · cases hbound
      refine hm.substitute fun c hc => hs c ?_
      unfold splitAssignment? at hsplit
      split at hsplit
      · rename_i heq
        split at hsplit
        · cases hsplit
          rw [heq]
          exact List.mem_cons_of_mem _ (List.mem_cons_of_mem _ hc)
        · cases hsplit
      · cases hsplit
    · exact hm name bound hbound
  · exact hm

/-! ## Unbound symbols -/

/-- Each name is kept once. -/
private theorem mem_firsts {x : String} (names seen : List String) :
    x ∈ names.foldl (fun seen name => if seen.contains name then seen else seen ++ [name]) seen ↔
      x ∈ seen ∨ x ∈ names := by
  induction names generalizing seen with
  | nil => simp only [List.foldl_nil, List.not_mem_nil, or_false]
  | cons name rest ih =>
    rw [List.foldl_cons, ih, List.mem_cons]
    split
    · rename_i hseen
      have hmem : name ∈ seen := List.contains_iff_mem.mp hseen
      constructor
      · exact Or.imp_right .inr
      · rintro (h | rfl | h)
        · exact .inl h
        · exact .inl hmem
        · exact .inr h
    · rw [List.mem_append, List.mem_singleton, or_assoc]

/-- A name that is no constant stands for something exactly if it is bound. -/
theorem isSome_resolve? (h : Vocabulary.isConstant name = false) :
    (m.resolve? name).isSome = (m.binding? name).isSome := by
  have hnone : Vocabulary.constant? name = none := 
    Option.isNone_iff_eq_none.mp (Option.isSome_eq_false_iff.mp h)
  unfold resolve?
  rw [hnone]
  cases m.binding? name <;> rfl

/-- The unbound symbols of an expression are its symbols without a binding. -/
theorem mem_unboundSymbols {expression x : String} :
    x ∈ m.unboundSymbols expression ↔
      x ∈ symbols expression.toList ∧ m.binding? x = none := by
  rw [unboundSymbols, mem_firsts, mem_symbols, words, List.mem_map, List.mem_map]
  constructor
  · rintro (h | ⟨w, hw, rfl⟩)
    · cases h
    · obtain ⟨hmem, hunbound⟩ := List.mem_filter.mp hw
      simp only [Bool.not_eq_true', Bool.or_eq_false_iff] at hunbound
      obtain ⟨⟨⟨hcall, hkeyword⟩, hresolve⟩, hconstant⟩ := hunbound
      rw [isSome_resolve? hconstant] at hresolve
      exact ⟨⟨⟨w, hmem, by rw [hcall]⟩, hconstant, hkeyword⟩, by simpa using hresolve⟩
  · rintro ⟨⟨⟨w, hmem, hw⟩, hconstant, hkeyword⟩, hnone⟩
    obtain ⟨rfl, hcall⟩ := Prod.mk.inj hw
    refine .inr ⟨w, List.mem_filter.mpr ⟨hmem, ?_⟩, rfl⟩
    rw [hcall, hkeyword, hconstant, isSome_resolve? hconstant, hnone]
    rfl

/-- Nothing is unbound exactly if every symbol is bound. -/
theorem unboundSymbols_eq_nil_iff {expression : String} :
    m.unboundSymbols expression = [] ↔
      ∀ x ∈ symbols expression.toList, (m.binding? x).isSome = true := by
  simp only [List.eq_nil_iff_forall_not_mem, mem_unboundSymbols, not_and,
    ← Option.isSome_iff_ne_none]

/-! ## Symbols of values -/

variable (m)

/-- A word of the text is bound to a value with a symbol that is bound as well. -/
def PassesOn (s : List Char) : Prop :=
  ∃ word value symbol, (word, false) ∈ words s ∧ m.binding? word = some value ∧
    symbol ∈ symbols value ∧ (m.binding? symbol).isSome = true

variable {m}

/-- A bound name stands for its value. -/
theorem resolve?_of_binding? (h : m.binding? name = some value) :
    m.resolve? name = some value := by
  rw [resolve?, h]

/-- The engine's name of a constant is no symbol, so a symbol comes from a binding. -/
theorem binding?_of_resolve? {x : String} (h : m.resolve? name = some value)
    (hx : x ∈ symbols value) : m.binding? name = some value := by
  unfold resolve? at h
  split at h
  · rename_i value' hbound
    cases h
    exact hbound
  · split at h
    · rename_i k hk
      split at h
      · cases h
      · cases h
        rw [symbols_engineName (List.mem_of_find?_eq_some hk)] at hx
        cases hx
    · cases h

/-- The symbols of a text with values are its own unbound ones and those of the values. -/
theorem mem_symbols_substitute {x : String} :
    x ∈ symbols (m.substitute s) ↔
      (x ∈ symbols s ∧ m.binding? x = none) ∨
        ∃ word value, (word, false) ∈ words s ∧ m.binding? word = some value ∧
          x ∈ symbols value := by
  rw [mem_symbols, words_substitute, List.mem_flatMap]
  constructor
  · rintro ⟨⟨⟨word, isCall⟩, hword, hplace⟩, hconstant, hkeyword⟩
    cases isCall with
    | true =>
      rw [inPlaceOf, if_pos rfl, List.mem_singleton] at hplace
      cases hplace
    | false =>
      rw [inPlaceOf, if_neg Bool.false_ne_true] at hplace
      cases hresolve : m.resolve? word with
      | none =>
        rw [hresolve, Option.map_none, Option.getD_none, List.mem_singleton] at hplace
        cases hplace
        have hunbound := isSome_resolve? (m := m) hconstant
        rw [hresolve] at hunbound
        exact .inl ⟨mem_symbols.mpr ⟨hword, hconstant, hkeyword⟩, by simpa using hunbound.symm⟩
      | some value =>
        rw [hresolve] at hplace
        have hx : x ∈ symbols value := mem_symbols.mpr ⟨hplace, hconstant, hkeyword⟩
        exact .inr ⟨word, value, hword, binding?_of_resolve? hresolve hx, hx⟩
  · rintro (⟨hx, hunbound⟩ | ⟨word, value, hword, hvalue, hx⟩)
    · obtain ⟨hword, hconstant, hkeyword⟩ := mem_symbols.mp hx
      have hresolve : m.resolve? x = none := by
        have h := isSome_resolve? (m := m) hconstant
        rw [hunbound] at h
        simpa using h
      refine ⟨⟨(x, false), hword, ?_⟩, hconstant, hkeyword⟩
      rw [inPlaceOf, if_neg Bool.false_ne_true, hresolve]
      exact List.mem_singleton_self _
    · obtain ⟨hmem, hconstant, hkeyword⟩ := mem_symbols.mp hx
      refine ⟨⟨(word, false), hword, ?_⟩, hconstant, hkeyword⟩
      rw [inPlaceOf, if_neg Bool.false_ne_true, resolve?_of_binding? hvalue]
      exact hmem

/-- Where no symbol is left unbound, there is one exactly if a bound one is passed on. -/
theorem symbols_substitute_eq_nil_iff
    (h : ∀ x ∈ symbols (m.substitute s), (m.binding? x).isSome = true) :
    symbols (m.substitute s) = [] ↔ ¬ m.PassesOn s := by
  constructor
  · rintro hnil ⟨word, value, x, hword, hvalue, hx, -⟩
    have hmem := mem_symbols_substitute.mpr (.inr ⟨word, value, hword, hvalue, hx⟩)
    rw [hnil] at hmem
    cases hmem
  · intro hnone
    refine List.eq_nil_iff_forall_not_mem.mpr fun x hx => ?_
    have hbound := h x hx
    rcases mem_symbols_substitute.mp hx with ⟨-, hunbound⟩ | ⟨word, value, hword, hvalue, hmem⟩
    · rw [hunbound] at hbound
      cases hbound
    · exact hnone ⟨word, value, x, hword, hvalue, hmem, hbound⟩

end Memory

end Reckoner
