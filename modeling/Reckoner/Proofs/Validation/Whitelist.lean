import Reckoner.Proofs.Grammar.Callees
import Reckoner.Proofs.Grammar.Soundness
import Reckoner.Proofs.Validation.Words
import Reckoner.Service.Batch

/-!
# What a checked text calls

The checks look at words in front of brackets, the grammar at operands. A call whose name stands
directly in front of its bracket is seen by both, so it is a function that may be called. A name
that round brackets close around, as in `(f)(x)`, is called as well, and no check sees it: the
calls of a checked text are functions exactly if those of such names are.
-/

namespace Reckoner.Validation

open Text Vocabulary

/-- The names in round brackets that are called. -/
def bracketedCallees (s : String) : List String :=
  ((Bracketing.start.callees (Token.scanAll s.toList).1).filter (·.2)).map (·.1)

/-- A normalized text has no blanks. -/
theorem isBlank_of_mem_normalize {t : String} {c : Char} (h : c ∈ (normalize t).toList) :
    isBlank c = false := by
  rw [normalize, String.toList_ofList, normalizeChars, List.mem_map] at h
  obtain ⟨d, hd, rfl⟩ := h
  unfold roundBracket
  split
  · decide
  · split
    · decide
    · exact isBlank_of_mem_dropBlanks hd

/-! ## No word that passes looks like an exponent -/

/-- An exponent mark in either case and a digit. -/
def marksExponent : List Char → Bool
  | c :: d :: _ => c == 'e' && d.isDigit
  | _ => false

private theorem marksExponent_toLower {w : Identifier} (h : w.isExponent = true) :
    marksExponent w.text.toLower.toList = true := by
  unfold Identifier.isExponent at h
  split at h
  · rename_i d ds hw
    have hd : d.toLower = d := by
      have hn := Token.toNat_of_isDigit h
      have hupper : ¬ (d.val ≥ 'A'.val ∧ d.val ≤ 'Z'.val) := by
        rintro ⟨ha, -⟩
        have ha' : 65 ≤ d.toNat := by simpa [UInt32.le_iff_toNat_le] using ha
        omega
      exact dif_neg hupper
    have hlower : w.text.toLower = w.text.map Char.toLower := rfl
    rw [hlower, Identifier.text, String.toList_map, String.toList_ofList, hw, List.map_cons,
      List.map_cons, hd]
    simpa [marksExponent] using h
  · cases h

private theorem marksExponent_of_sameName {f : String} {w : Identifier} (h : w.isExponent = true)
    (hf : sameName f w.text = true) : marksExponent f.toLower.toList = true := by
  rw [sameName, beq_iff_eq] at hf
  rw [hf]
  exact marksExponent_toLower h

/-- Functions, constants and truth values do not look like exponents. -/
theorem isExponent_of_isRecognized {w : Identifier} (h : isRecognized w = true)
    (hcall : w.isCall = true → isFunction w.text = true) : w.isExponent = false := by
  refine Bool.eq_false_iff.mpr fun hw => ?_
  simp only [isRecognized, Bool.or_eq_true] at h
  rcases h with ((h | h) | h) | h
  · have hfunctions : functions.all (fun f => !marksExponent f.toLower.toList) = true := by
      decide +kernel
    obtain ⟨f, hf, hsame⟩ := List.any_eq_true.mp (hcall h)
    have hno := List.all_eq_true.mp hfunctions f hf
    rw [marksExponent_of_sameName hw hsame] at hno
    cases hno
  · unfold Identifier.isExponent at hw
    split at hw
    · rename_i hname
      simp [Identifier.isSingle, hname] at h
    · cases hw
  · have hconstants : constants.all (fun c => !marksExponent c.name.toLower.toList) = true := by
      decide +kernel
    obtain ⟨c, hc⟩ := Option.isSome_iff_exists.mp h
    have hno := List.all_eq_true.mp hconstants c (List.mem_of_find?_eq_some hc)
    have hsame : sameName c.name w.text = true := by
      simpa using List.find?_some (show constants.find? (sameName ·.name w.text) = some c from hc)
    rw [marksExponent_of_sameName hw hsame] at hno
    cases hno
  · have hkeywords : keywords.all (fun k => !marksExponent k.toLower.toList) = true := by
      decide +kernel
    have hno := List.all_eq_true.mp hkeywords w.text (List.contains_iff_mem.mp h)
    rw [marksExponent_toLower hw] at hno
    cases hno

/-! ## What the checks see -/

/-- A text that passes has recognized words only, and calls only functions among them. -/
theorem word_of_checks {n : String} (hg : checkGrammar n = .ok ()) (hs : checkSemantics n = .ok ())
    {w : Identifier} (hw : w ∈ identifiers n.toList) :
    isRecognized w = true ∧ (w.isCall = true → isFunction w.text = true) := by
  constructor
  · unfold checkGrammar at hg
    split at hg
    · cases hg
    · rename_i hnone
      have hw' := List.find?_eq_none.mp hnone w hw
      simpa using hw'
  · intro hcall
    unfold checkSemantics at hs
    split at hs
    · cases hs
    · rename_i hnone
      have hw' := List.find?_eq_none.mp hnone w hw
      simpa [hcall] using hw'

/-- No word of a text that passes looks like an exponent. -/
theorem noExponent_of_checks {n : String} (hg : checkGrammar n = .ok ())
    (hs : checkSemantics n = .ok ()) : NoExponent false 0 n.toList := by
  intro w hw
  obtain ⟨hrecognized, hfunction⟩ := word_of_checks hg hs (mem_identifiers.mpr hw)
  exact isExponent_of_isRecognized hrecognized hfunction

/-- A name directly in front of the bracket that calls it is seen by the checks. -/
theorem isFunction_of_directly_called {n f : String} (hg : checkGrammar n = .ok ())
    (hs : checkSemantics n = .ok ()) (hblank : ∀ c ∈ n.toList, isBlank c = false)
    (hf : (f, false) ∈ Bracketing.start.callees (Token.scanAll n.toList).1) :
    isFunction f = true := by
  rcases Bracketing.directly_called hf with ⟨hstart, -⟩ | ⟨before, b, behind, hb, hts⟩
  · cases hstart
  · obtain ⟨w, hw, rfl, hcall⟩ := exists_word_of_tokens (noExponent_of_checks hg hs) hblank hts
    exact (word_of_checks hg hs (mem_identifiers.mpr hw)).2 (hcall.trans hb)

/-- An engine that gets to read a text accepts it exactly if it is an expression. -/
theorem pool_validate_iff {p : Service.Pool Builtin.State} {t : String} :
    (∃ c, (p.validate Engine.builtin t).1 = .ok c) ↔
      p.gate.free ≠ 0 ∧ ∃ e, Grammar.parse t = .ok e := by
  unfold Service.Pool.validate Service.Pool.run Service.Gate.acquire Service.Gate.take?
  by_cases hfree : p.gate.free = 0
  · simp only [if_pos hfree]
    exact ⟨fun ⟨_, h⟩ => (nomatch h), fun h => absurd hfree h.1⟩
  · simp only [if_neg hfree, Engine.builtin, Builtin.parse]
    cases Grammar.parse t with
    | ok e => exact ⟨fun _ => ⟨hfree, e, rfl⟩, fun _ => ⟨e.print none, rfl⟩⟩
    | error e => exact ⟨fun ⟨_, h⟩ => (nomatch h), fun ⟨_, _, h⟩ => (nomatch h)⟩

/-- Validation accepts a text, where no caller is interrupted, exactly if its normal form passes
the checks and is an expression, and gives the normal form. -/
theorem validate_iff {s : Service Builtin.State} {t n : String} :
    ((Service.validate Engine.builtin t).run.run s).1 = .ok n ↔
      s.pool.gate.free ≠ 0 ∧ n = normalize t ∧ checkGrammar n = .ok () ∧
        checkSemantics n = .ok () ∧ ∃ e, Grammar.parse n = .ok e := by
  constructor
  · intro h
    cases hg : checkGrammar (normalize t) with
    | error e =>
      simp only [Service.validate, hg] at h
      cases h
    | ok =>
      cases hs : checkSemantics (normalize t) with
      | error e =>
        simp only [Service.validate, hg, hs] at h
        cases h
      | ok =>
        simp only [Service.validate, hg, hs, ExceptT.run_bind, StateT.run_bind,
          Service.validateSyntax, Service.run_inPool] at h
        cases hp : (s.pool.validate Engine.builtin (normalize t)).1 with
        | error e =>
          simp only [hp] at h
          cases h
        | ok c =>
          simp only [hp] at h
          cases h
          obtain ⟨hfree, hparse⟩ := pool_validate_iff.mp ⟨c, hp⟩
          exact ⟨hfree, rfl, hg, hs, hparse⟩
  · rintro ⟨hfree, rfl, hg, hs, hparse⟩
    obtain ⟨c, hp⟩ := pool_validate_iff.mpr ⟨hfree, hparse⟩
    simp only [Service.validate, hg, hs, ExceptT.run_bind, StateT.run_bind,
      Service.validateSyntax, Service.run_inPool, hp]
    rfl

/-- A text that validation accepts calls nothing but functions exactly if it does so where a
bracket stands behind a name in brackets. -/
theorem calls_of_validate {s : Service Builtin.State} {t n : String}
    (h : ((Service.validate Engine.builtin t).run.run s).1 = .ok n) :
    ∃ e, Grammar.parse n = .ok e ∧ ((∀ f ∈ e.calls, isFunction f = true) ↔
      ∀ f ∈ bracketedCallees n, isFunction f = true) := by
  obtain ⟨-, rfl, hg, hs, e, he⟩ := validate_iff.mp h
  obtain ⟨ts, hts, hd, -⟩ := Grammar.derives_of_parse he
  refine ⟨e, he, ?_⟩
  have htokens : (Token.scanAll (normalize t).toList).1 = ts := by rw [hts]
  rw [Bracketing.calls_eq_callees hd, bracketedCallees, htokens]
  simp only [List.mem_map, List.mem_filter]
  constructor
  · rintro hall f ⟨c, ⟨hc, -⟩, rfl⟩
    exact hall _ ⟨c, hc, rfl⟩
  · rintro hall f ⟨⟨f, b⟩, hc, rfl⟩
    cases b with
    | true => exact hall f ⟨(f, true), ⟨hc, rfl⟩, rfl⟩
    | false =>
      rw [← htokens] at hc
      exact isFunction_of_directly_called hg hs (fun c => isBlank_of_mem_normalize) hc

/-- A service with one engine, none of whose results is stored. -/
def idleService : Service Builtin.State :=
  ⟨{}, Service.Pool.ofGate ⟨1, 1, 0⟩, Service.Store.empty {}, 0, 0⟩

theorem exists_of_isOk {ε α : Type} {x : Except ε α} (h : x.isOk = true) :
    ∃ a, x = .ok a := by
  cases x with
  | ok a => exact ⟨a, rfl⟩
  | error e => cases h

/-- A text that passes each check is accepted. -/
theorem accepts {t n : String} (hn : n = normalize t) (hg : (checkGrammar n).isOk = true)
    (hs : (checkSemantics n).isOk = true) (hp : (Grammar.parse n).isOk = true) :
    ((Service.validate Engine.builtin t).run.run idleService).1 = .ok n := by
  obtain ⟨_, hg⟩ := exists_of_isOk hg
  obtain ⟨_, hs⟩ := exists_of_isOk hs
  exact validate_iff.mpr ⟨by decide, hn, hg, hs, exists_of_isOk hp⟩

/-- A function in brackets is called as it is without them. -/
theorem calls_of_validate_function :
    ∃ e, Grammar.parse "(N)(x)" = .ok e ∧ ∀ f ∈ e.calls, isFunction f = true := by
  have h := accepts (t := "(N) [x]") (n := "(N)(x)") (by decide +kernel) (by decide +kernel)
    (by decide +kernel) (by decide +kernel)
  obtain ⟨e, he, hiff⟩ := calls_of_validate h
  exact ⟨e, he, hiff.mpr (by decide +kernel)⟩

/-- The checks miss that `(f)(x)` calls `f`, which is no function. -/
theorem validate_misses_bracketed_callee :
    ¬ ∀ (s : Service Builtin.State) (t n : String),
      ((Service.validate Engine.builtin t).run.run s).1 = .ok n →
        ∃ e, Grammar.parse n = .ok e ∧ ∀ f ∈ e.calls, isFunction f = true := by
  intro hall
  obtain ⟨e, he, hcalls⟩ := hall idleService "(f)(x)" "(f)(x)"
    (accepts (by decide +kernel) (by decide +kernel) (by decide +kernel) (by decide +kernel))
  have hf : (Grammar.parse "(f)(x)").toOption.map Expr.calls = some ["f"] := by decide +kernel
  rw [he] at hf
  have hfunction := hcalls "f" (by
    rw [Option.some.inj hf]
    exact List.mem_singleton_self "f")
  revert hfunction
  decide +kernel

end Reckoner.Validation
