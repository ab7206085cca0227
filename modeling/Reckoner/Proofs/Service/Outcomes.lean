import Mathlib.Tactic.Choose
import Reckoner.Proofs.Service.Tidiness
import Reckoner.Service.Batch

/-!
# Outcomes of batches

Everything that a service is asked for is a steady task. No text whatever ends a batch: what is
wrong with an expression stands in its record, which has the results of its shape or a single
problem. A record depends on the assignments before it, and unless it is an assignment itself, it
leaves them as they are.
-/

namespace Reckoner

/-- The kinds of results of an expression that is evaluated. -/
def Shape.kinds : Shape → List ResultKind
  | blank | assignment => []
  | equation | matrix | boolean | vector => [.evaluation]
  | function | unknown => [.evaluation, .drawing]
  | numeric => [.evaluation, .calculation, .drawing]

/-- A record has the results of its shape, or says what an expression is refused for. -/
structure Record.WellShaped (r : Record) (expression : String) : Prop where
  /-- The expression is as it was given. -/
  expression_eq : r.expression = expression
  /-- Blank texts, and no others, are blank. -/
  blank_iff : r.shape = .blank ↔ Text.allBlank expression.toList = true
  /-- The results of the shape, or a single problem. -/
  results : r.results.map TypedResult.kind = r.shape.kinds ∨ r.shape = .unknown ∧
    ∃ problem, r.results = [⟨.evaluation, ⟨expression, [problem]⟩⟩]

/-- A text with a visible character is not blank. -/
theorem Shape.ofChars_ne_blank {s : List Char} (h : Text.allBlank s = false) :
    Shape.ofChars s ≠ .blank := by
  unfold Shape.ofChars
  rw [h, if_neg Bool.false_ne_true]
  repeat' split
  all_goals nofun

/-- A text that has more than blanks is not blank. -/
theorem Shape.ofChars_dropBlanks_ne_blank {s : List Char} (h : Text.dropBlanks s ≠ []) :
    Shape.ofChars (Text.dropBlanks s) ≠ .blank := by
  obtain ⟨c, hc⟩ := List.exists_mem_of_ne_nil _ h
  refine Shape.ofChars_ne_blank (List.all_eq_false.mpr ⟨c, hc, ?_⟩)
  rw [Text.isBlank_of_mem_dropBlanks hc]
  exact Bool.false_ne_true

/-- The record of a refused expression holds its problem. -/
theorem Record.wellShaped_rejected {expression : String} (cause : Failure)
    (h : Text.allBlank expression.toList = false) :
    (Record.rejected expression cause).WellShaped expression where
  expression_eq := rfl
  blank_iff := by
    rw [h]
    exact ⟨nofun, nofun⟩
  results := .inr ⟨rfl, cause.message, rfl⟩

/-- What is left of a visible text behind its normal form is visible. -/
theorem Validation.dropBlanks_normalize {s : String} (h : normalize s ≠ "") :
    Text.dropBlanks (normalize s).toList ≠ [] := by
  intro hblank
  apply h
  have hnormal := normalizeChars_normalizeChars s.toList
  rw [normalize, String.toList_ofList] at hblank
  rw [normalizeChars, hblank] at hnormal
  rw [normalize, ← hnormal]
  rfl

namespace Service

variable {σ : Type} {engine : Engine σ} {settings : Settings}

/-! ## Shapes and results -/

/-- Every text has a shape, and a visible one is not blank. -/
theorem steady_classify (hengine : engine.Renewable) (places : Nat) (expression : String) :
    Steady engine settings (classify engine places expression) fun r =>
      ∃ shape, r = .ok shape ∧ (Text.dropBlanks expression.toList ≠ [] → shape ≠ .blank) := by
  unfold classify
  by_cases hs : Text.dropBlanks expression.toList = []
  · rw [hs]
    exact .pure ⟨.blank, rfl, fun h => absurd rfl h⟩
  have hliteral := Shape.ofChars_dropBlanks_ne_blank hs
  have hne : (Text.dropBlanks expression.toList).isEmpty ≠ true := by
    simpa only [ne_eq, List.isEmpty_iff] using hs
  rw [if_neg hne]
  dsimp only
  split
  · exact .pure ⟨.assignment, rfl, fun _ => nofun⟩
  refine (steady_evaluate hengine _).bind (fun value _ => ?_) nofun
  split
  · refine (steady_calculate hengine _ _).bind (fun approximation _ => ?_) nofun
    split
    · exact .pure ⟨.numeric, rfl, fun _ => nofun⟩
    · exact .pure ⟨.function, rfl, fun _ => nofun⟩
  · exact .pure ⟨_, rfl, fun _ => hliteral⟩
  · exact .pure ⟨_, rfl, fun _ => hliteral⟩
  · rename_i hblank
    exact .pure ⟨_, rfl, fun _ => hblank⟩

/-- The kinds of results that a strategy computes. -/
def Strategy.kinds : Strategy → List ResultKind
  | plot _ => [.evaluation, .drawing]
  | symbolic _ | display _ => [.evaluation]
  | numeric => [.evaluation, .calculation, .drawing]
  | assignment => []

/-- A strategy always gives its results. -/
theorem Strategy.steady_run (hengine : engine.Renewable) (text : String) (p : Parameters)
    (strategy : Strategy) :
    Steady engine settings (strategy.run engine text p) fun r =>
      ∃ results, r = .ok results ∧ results.map TypedResult.kind = strategy.kinds := by
  have hdrawing : Steady engine settings (drawing engine text p) fun r =>
      ∃ value, r = .ok ⟨.drawing, value⟩ := by
    refine (steady_draw hengine _ _ _ _).bind (fun value _ => ?_) nofun
    exact .pure ⟨value, rfl⟩
  cases strategy with
  | plot shape =>
    refine (steady_evaluate hengine text).bind (fun value _ => ?_) nofun
    refine hdrawing.bind (fun graph hgraph => ?_) nofun
    obtain ⟨points, hpoints⟩ := hgraph
    cases hpoints
    exact .pure ⟨_, rfl, rfl⟩
  | symbolic shape =>
    refine (steady_evaluate hengine text).bind (fun value _ => ?_) nofun
    exact .pure ⟨_, rfl, rfl⟩
  | display shape =>
    refine (steady_evaluate hengine text).bind (fun value _ => ?_) nofun
    split
    · exact .pure ⟨_, rfl, rfl⟩
    · refine (steady_display hengine value).bind (fun value _ => ?_) nofun
      exact .pure ⟨_, rfl, rfl⟩
  | numeric =>
    refine (steady_evaluate hengine text).bind (fun value _ => ?_) nofun
    refine (steady_calculate hengine text p.places).bind (fun approximation _ => ?_) nofun
    refine hdrawing.bind (fun graph hgraph => ?_) nofun
    obtain ⟨points, hpoints⟩ := hgraph
    cases hpoints
    exact .pure ⟨_, rfl, rfl⟩
  | assignment => exact .pure ⟨[], rfl, rfl⟩

/-- The usual table has a strategy for every shape that is evaluated, which computes the kinds of
results of the shape. -/
theorem Table.get?_standard {shape : Shape} (h : shape ≠ .blank) :
    ∃ strategy, Table.standard.get? shape = some strategy ∧ strategy.kinds = shape.kinds := by
  cases shape with
  | blank => exact absurd rfl h
  | assignment => exact ⟨.assignment, rfl, rfl⟩
  | equation => exact ⟨.symbolic .equation, rfl, rfl⟩
  | boolean => exact ⟨.display .boolean, rfl, rfl⟩
  | numeric => exact ⟨.numeric, rfl, rfl⟩
  | matrix => exact ⟨.symbolic .matrix, rfl, rfl⟩
  | vector => exact ⟨.display .vector, rfl, rfl⟩
  | function => exact ⟨.plot .function, rfl, rfl⟩
  | unknown => exact ⟨.plot .unknown, rfl, rfl⟩

/-- Every shape that is evaluated has its results. -/
theorem Table.steady_dispatch (hengine : engine.Renewable) {shape : Shape} (h : shape ≠ .blank)
    (text : String) (p : Parameters) :
    Steady engine settings (Table.standard.dispatch engine shape text p) fun r =>
      ∃ results, r = .ok results ∧ results.map TypedResult.kind = shape.kinds := by
  obtain ⟨strategy, hget, hkinds⟩ := Table.get?_standard h
  rw [Table.dispatch, hget, ← hkinds]
  exact strategy.steady_run hengine text p

/-! ## Validation -/

/-- What is validated is the normal form, which the engine reads; what is refused can be recovered
from. -/
def Validated (engine : Engine σ) (expression : String) : Except Failure String → Prop
  | .ok text => text = Validation.normalize expression ∧ ∃ c, verdict engine text = .ok c
  | .error e => e.isRecoverable = true

/-- A word that may not stand where it does is no failure of the service. -/
theorem isRecoverable_of_checkGrammar {text : String} {e : Failure}
    (h : Validation.checkGrammar text = .error e) : e.isRecoverable = true := by
  unfold Validation.checkGrammar at h
  split at h
  · cases h
    rfl
  · cases h

/-- Neither is a function that may not be called. -/
theorem isRecoverable_of_checkSemantics {text : String} {e : Failure}
    (h : Validation.checkSemantics text = .error e) : e.isRecoverable = true := by
  unfold Validation.checkSemantics at h
  split at h
  · cases h
    rfl
  · cases h

/-- A text is validated the same at any time. -/
theorem steady_validate (hengine : engine.Renewable) (expression : String) :
    Steady engine settings (validate engine expression) (Validated engine expression) := by
  unfold validate
  simp only []
  cases hgrammar : Validation.checkGrammar (Validation.normalize expression) with
  | error e => exact .throw (isRecoverable_of_checkGrammar hgrammar)
  | ok =>
    cases hsemantics : Validation.checkSemantics (Validation.normalize expression) with
    | error e => exact .throw (isRecoverable_of_checkSemantics hsemantics)
    | ok =>
      refine (steady_validateSyntax hengine _).bind (fun c hc => ?_) fun e he => ?_
      · exact .pure ⟨rfl, c, hc.symm⟩
      · exact isRecoverable_of_verdict he.symm

/-- A refusal is an outcome like any other. -/
theorem steady_validateOrRefuse (hengine : engine.Renewable) (expression : String) :
    Steady engine settings (validateOrRefuse engine expression) fun r =>
      ∃ checked, r = .ok checked ∧ Validated engine expression checked := by
  unfold validateOrRefuse
  refine Steady.bind (P := fun r => ∃ checked, r = .ok (.error checked) ∧
    Validated engine expression checked) (Steady.tryCatch (P := fun r =>
      (∃ text, r = .ok (.error (.ok text)) ∧ Validated engine expression (.ok text)) ∨
        ∃ e, r = .error e ∧ Validated engine expression (.error e)) ?_ ?_ ?_) ?_ ?_
  · refine (steady_validate hengine expression).bind (fun text htext => ?_) fun e he => ?_
    · exact .pure (.inl ⟨text, rfl, htext⟩)
    · exact .inr ⟨e, rfl, he⟩
  · rintro a (⟨text, ha, htext⟩ | ⟨e, ha, -⟩)
    · exact ⟨.ok text, ha, htext⟩
    · cases ha
  · rintro e (⟨text, he, -⟩ | ⟨e, he, hrecoverable⟩)
    · cases he
    · cases he
      have hrecover : e.isRecoverable = true := hrecoverable
      rw [if_pos hrecover]
      exact .pure ⟨.error e, rfl, hrecoverable⟩
  · rintro a ⟨checked, ha, hchecked⟩
    cases ha
    exact .pure ⟨checked, rfl, hchecked⟩
  · rintro e ⟨checked, he, -⟩
    cases he

/-! ## Records -/

/-- An outcome with a property; the only failures are those of an engine that reads the empty text,
which has no shape. -/
def Granted (engine : Engine σ) {α : Type} (P : α → Prop) : Except Failure α → Prop
  | .ok a => P a
  | .error _ => ∃ c, verdict engine "" = .ok c

/-- The record of a visible expression whose values are filled in. -/
theorem steady_evaluateSubstituted (hengine : engine.Renewable) (memory : Memory)
    {expression : String} (hvisible : Text.allBlank expression.toList = false)
    (substituted : String) (p : Parameters) :
    Steady engine settings (evaluateSubstituted engine memory expression substituted p)
      (Granted engine (Record.WellShaped · expression)) := by
  unfold evaluateSubstituted
  refine (steady_validateOrRefuse hengine substituted).bind (fun checked hchecked => ?_) nofun
  obtain ⟨_, hok, hvalid⟩ := hchecked
  cases hok
  cases checked with
  | error e => exact .pure (Record.wellShaped_rejected e hvisible)
  | ok text =>
    obtain ⟨htext, c, hc⟩ := hvalid
    refine Steady.read ?_ fun s hs => by rw [hs.classification]
    refine (steady_classify hengine _ text).bind (fun shape hshape => ?_) nofun
    obtain ⟨_, hok, hblank⟩ := hshape
    cases hok
    dsimp only
    split
    · exact .pure (Record.wellShaped_rejected _ hvisible)
    by_cases hshape : shape = .blank
    · -- Only the empty text is blank in its normal form, and the table has nothing for it.
      have hempty : Validation.normalize substituted = "" := by
        by_contra hne
        subst htext
        exact hblank (Validation.dropBlanks_normalize hne) hshape
      subst hshape
      refine Steady.bind (P := fun r => ∃ e, r = .error e) (.throw ⟨_, rfl⟩) nofun fun e _ => ?_
      exact ⟨c, by rw [← hempty, ← htext, hc]⟩
    · refine (Table.steady_dispatch hengine hshape text p).bind (fun results hresults => ?_) nofun
      obtain ⟨_, hok, hkinds⟩ := hresults
      cases hok
      refine .pure ⟨rfl, ?_, .inl hkinds⟩
      rw [hvisible]
      exact ⟨fun h => absurd h hshape, nofun⟩

/-- Only an assignment changes the memory. -/
theorem eq_of_apply_substituted {memory next : Memory} {expression : String} {s : List Char}
    (h : memory.apply expression = (.substituted s, next)) : next = memory := by
  unfold Memory.apply at h
  dsimp only at h
  split at h
  · cases h
  · cases h
    rfl

/-- What becomes of one expression with the assignments before it: its record, and the assignments
behind it. -/
abbrev Outcome := Memory → String → Except Failure (Record × Memory)

/-- Records are well shaped, and only those of assignments change the memory. -/
def Outcome.Sound (engine : Engine σ) (outcome : Outcome) : Prop :=
  ∀ memory expression, Granted engine (fun one : Record × Memory =>
    one.1.WellShaped expression ∧ (one.1.shape ≠ .assignment → one.2 = memory))
      (outcome memory expression)

/-- A single expression has a sound outcome. -/
theorem steady_evaluateOne (hengine : engine.Renewable) (p : Parameters) (memory : Memory)
    (expression : String) :
    Steady engine settings (evaluateOne engine p memory expression)
      (Granted engine fun one => one.1.WellShaped expression ∧
        (one.1.shape ≠ .assignment → one.2 = memory)) := by
  unfold evaluateOne
  refine Steady.read ?_ fun s hs => by rw [hs.limits]
  cases hblank : Text.allBlank expression.toList with
  | true =>
    refine .pure ⟨⟨rfl, ?_, .inl rfl⟩, fun _ => rfl⟩
    exact ⟨fun _ => hblank, fun _ => rfl⟩
  | false =>
    rw [if_neg Bool.false_ne_true]
    split
    · exact .pure ⟨Record.wellShaped_rejected _ hblank, fun _ => rfl⟩
    · split
      · have hassignment : Shape.assignment ≠ .blank := nofun
        refine (Table.steady_dispatch hengine hassignment expression p).bind
          (fun results hresults => ?_) nofun
        obtain ⟨_, hok, hkinds⟩ := hresults
        cases hok
        refine .pure ⟨⟨rfl, ?_, .inl hkinds⟩, fun h => absurd rfl h⟩
        rw [hblank]
        exact ⟨nofun, nofun⟩
      · rename_i s next happly
        have hnext : next = memory := eq_of_apply_substituted happly
        refine (steady_evaluateSubstituted hengine next hblank _ p).bind
          (fun record hshaped => ?_) fun _ he => he
        exact .pure ⟨hshaped, fun _ => hnext⟩

/-! ## Batches -/

/-- The outcomes of single expressions do not depend on what was asked for before. -/
theorem exists_outcome (hengine : engine.Renewable) (settings : Settings) (p : Parameters) :
    ∃ outcome : Outcome, outcome.Sound engine ∧ ∀ memory expression,
      Steady engine settings (evaluateOne engine p memory expression)
        (· = outcome memory expression) := by
  have hone (memory : Memory) (expression : String) :=
    @steady_evaluateOne σ engine settings hengine p memory expression
  choose outcome hsound hrun using hone
  exact ⟨outcome, hsound, fun memory expression => ⟨_, rfl, hrun memory expression⟩⟩

/-- Expressions have records one after another, each with the assignments before it. -/
inductive Trail (outcome : Outcome) : Memory → List String → List Record → Memory → Prop
  /-- No expression changes nothing. -/
  | nil (memory : Memory) : Trail outcome memory [] [] memory
  /-- The assignments behind an expression are those before the next. -/
  | cons {memory next last : Memory} {expression : String} {record : Record}
      {rest : List String} {records : List Record}
      (one : outcome memory expression = .ok (record, next))
      (more : Trail outcome next rest records last) :
      Trail outcome memory (expression :: rest) (record :: records) last

variable {outcome : Outcome} {p : Parameters}

/-- A trail of expressions is the first of them and a trail of the others. -/
theorem Trail.exists_cons {memory : Memory} {expression : String} {rest : List String}
    {all : List Record} :
    (∃ last, Trail outcome memory (expression :: rest) all last) ↔
      ∃ record next records, outcome memory expression = .ok (record, next) ∧
        all = record :: records ∧ ∃ last, Trail outcome next rest records last := by
  constructor
  · rintro ⟨last, htrail⟩
    cases htrail with
    | cons one more => exact ⟨_, _, _, one, rfl, last, more⟩
  · rintro ⟨record, next, records, one, rfl, last, more⟩
    exact ⟨last, .cons one more⟩

/-- The records of expressions are those of a trail. -/
theorem steady_evaluateAll (h : ∀ memory expression,
      Steady engine settings (evaluateOne engine p memory expression)
        (· = outcome memory expression)) (memory : Memory) (expressions : List String) :
    Steady engine settings (evaluateAll engine p memory expressions) fun r =>
      ∀ records, r = .ok records ↔ ∃ last, Trail outcome memory expressions records last := by
  induction expressions generalizing memory with
  | nil =>
    apply Steady.pure
    intro records
    constructor
    · rintro ⟨⟩
      exact ⟨memory, .nil memory⟩
    · rintro ⟨_, ⟨⟩⟩
      rfl
  | cons expression rest ih =>
    simp only [Trail.exists_cons]
    refine (h memory expression).bind (fun one hone => ?_) fun e he all => ⟨nofun, ?_⟩
    · obtain ⟨record, next⟩ := one
      refine (ih next).bind (fun records hrecords => ?_) fun e he all => ⟨nofun, ?_⟩
      · apply Steady.pure
        intro all
        constructor
        · rintro ⟨⟩
          exact ⟨record, next, records, hone.symm, rfl, (hrecords records).mp rfl⟩
        · rintro ⟨_, _, _, hrecord, rfl, hmore⟩
          cases hone.trans hrecord
          cases (hrecords _).mpr hmore
          rfl
      · rintro ⟨_, _, _, hrecord, rfl, hmore⟩
        cases hone.trans hrecord
        cases (he _).mpr hmore
    · rintro ⟨_, _, _, hrecord, -⟩
      cases he.trans hrecord

/-- A batch is too long, or gives the records of its expressions. -/
theorem steady_evaluateBatch (h : ∀ memory expression,
      Steady engine settings (evaluateOne engine p memory expression)
        (· = outcome memory expression)) (expressions : List String) :
    Steady engine settings (evaluateBatch engine p expressions) fun r =>
      if settings.limits.batchSize < expressions.length then
        r = .error (.exceeded "batch has too many expressions" settings.limits.batchSize
          expressions.length)
      else ∀ records, r = .ok records ↔
        ∃ last, Trail outcome .initial expressions records last := by
  unfold evaluateBatch
  refine Steady.read ?_ fun s hs => by rw [hs.limits]
  dsimp only
  split
  · exact .throw rfl
  · exact steady_evaluateAll h .initial expressions

/-- The shape of a single expression. -/
theorem steady_classifyAlone (hengine : engine.Renewable) (expression : String) :
    Steady engine settings (classifyAlone engine expression) fun _ => True := by
  unfold classifyAlone
  split
  · exact .pure trivial
  · split
    · exact .pure trivial
    · refine (steady_validate hengine _).bind (fun text _ => ?_) fun _ _ => trivial
      refine Steady.read ?_ fun s hs => by rw [hs.classification]
      exact (steady_classify hengine _ text).mono fun _ _ => trivial

end Service

end Reckoner
