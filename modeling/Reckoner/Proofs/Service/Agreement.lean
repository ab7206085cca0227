import Reckoner.Proofs.Service.Batches
import Reckoner.Proofs.Service.Readiness
import Reckoner.Proofs.Validation.Words

/-!
# Classification alone and in a batch

An expression has the same shape on its own as in a batch in which it stands alone, whatever the
engines are and whatever the service was asked for before: both fill in constants, validate and
classify in the same way, and what a batch does behind that, refuse a word that stands for nothing
or compute results, leaves the shape as it is. What keeps an expression from having a shape on its
own is the problem of its record.
-/

namespace Reckoner

/-! ## Visible texts -/

section

open Text

variable {m : Memory} {s : List Char}

/-- What is written in the place of a word can be seen. -/
theorem Memory.exists_visible_of_replacement {w : Identifier} {value : List Char}
    (h : m.replacement w = some value) : ∃ c ∈ value, isBlank c = false := by
  unfold replacement at h
  split at h
  · cases h
  · obtain ⟨v, -, rfl⟩ := Option.map_eq_some_iff.mp h
    split
    · rename_i hbare
      -- A value without brackets has characters, none of which is blank.
      rw [Bool.and_eq_true] at hbare
      have hatomic := hbare.1
      cases v with
      | nil => cases hatomic
      | cons c v =>
        refine ⟨c, .head _, Token.isBlank_of_goesOn ?_⟩
        exact List.all_eq_true.mp (Bool.and_eq_true_iff.mp hatomic).2 c (.head _)
    · exact ⟨'(', .head _, rfl⟩

/-- A text that starts with a visible character can still be seen when values are written in it. -/
theorem Memory.exists_visible_of_substitute {c : Char} (hc : isBlank c = false) (rest : List Char) :
    ∃ d ∈ m.substitute (c :: rest), isBlank d = false := by
  have hfrom : m.substitute (c :: rest) = replaceFrom m.replacement false 0 (c :: rest) := rfl
  rw [hfrom]
  by_cases h : Token.isWordStart c = true
  · rw [replaceFrom_word false 0 _ h]
    generalize hw : m.replacement _ = value
    cases value with
    | none => exact ⟨c, .head _, hc⟩
    | some value =>
      obtain ⟨d, hd, hvisible⟩ := m.exists_visible_of_replacement hw
      exact ⟨d, List.mem_append_left _ hd, hvisible⟩
  · rw [replaceFrom_other false 0 _ (Bool.eq_false_iff.mpr h)]
    exact ⟨c, .head _, hc⟩

/-- What is no assignment has its words replaced. -/
theorem Memory.eq_substitute_of_apply {t : String} {u : List Char}
    (h : (m.apply t).1 = .substituted u) : u = m.substitute (dropBlanks t.toList) := by
  unfold apply at h
  dsimp only at h
  split at h
  · cases h
  · cases h
    rfl

/-- The normal form of a visible text with values in it is not empty. -/
theorem Memory.normalize_substitute_ne {t : String} (h : allBlank t.toList = false) :
    Validation.normalize (String.ofList (m.substitute (dropBlanks t.toList))) ≠ "" := by
  obtain ⟨c, hc, hvisible⟩ := List.all_eq_false.mp h
  have hmem : c ∈ dropBlanks t.toList := List.mem_filter.mpr ⟨hc, by simpa using hvisible⟩
  cases hs : dropBlanks t.toList with
  | nil => rw [hs] at hmem; cases hmem
  | cons d rest =>
    have hd : isBlank d = false := isBlank_of_mem_dropBlanks (hs ▸ List.mem_cons_self)
    obtain ⟨e, he, hvisible⟩ := m.exists_visible_of_substitute hd rest
    intro hempty
    have hnil := String.ofList_injective (hempty.trans String.ofList_nil.symm)
    rw [String.toList_ofList, Validation.normalizeChars, List.map_eq_nil_iff] at hnil
    have hmem : e ∈ dropBlanks (m.substitute (d :: rest)) :=
      List.mem_filter.mpr ⟨he, by rw [hvisible]; rfl⟩
    rw [hnil] at hmem
    cases hmem

end

/-- A batch may have an expression. -/
theorem Settings.batchSize_ne_zero_of_check {settings : Settings} (h : settings.check = .ok ()) :
    settings.limits.batchSize ≠ 0 := by
  intro hzero
  unfold check at h
  split at h
  · cases h
  · cases h

namespace Service

variable {σ : Type} {settings : Settings} {engine : Engine σ} {s : Service σ}

/-! ## Services that stay ready -/

/-- Every text has a shape, and a visible one is not blank. -/
theorem succeeds_classify (engine : Engine σ) (places : Nat) {text : String}
    (h : Text.dropBlanks text.toList ≠ []) :
    Succeeds settings (classify engine places text) (· ≠ .blank) := by
  have hliteral := Shape.ofChars_dropBlanks_ne_blank h
  have hne : (Text.dropBlanks text.toList).isEmpty ≠ true := by
    rwa [ne_eq, List.isEmpty_iff]
  unfold classify
  dsimp only
  rw [if_neg hne]
  split
  · exact .pure nofun
  refine (succeeds_evaluate engine _).bind fun value _ => ?_
  split
  · refine (succeeds_calculate engine _ places).bind fun approximation _ => ?_
    split
    · exact .pure nofun
    · exact .pure nofun
  · exact .pure hliteral
  · exact .pure hliteral
  · rename_i hblank
    exact .pure hblank

/-- A strategy gives its results. -/
theorem Strategy.succeeds_run (engine : Engine σ) (text : String) (p : Parameters)
    (strategy : Strategy) :
    Succeeds settings (strategy.run engine text p) fun _ => True := by
  have hdrawing : Succeeds settings (drawing engine text p) fun _ => True :=
    (succeeds_draw engine _ _ _ _).bind fun _ _ => .pure trivial
  cases strategy with
  | plot shape =>
    refine (succeeds_evaluate engine text).bind fun value _ => ?_
    exact hdrawing.bind fun _ _ => .pure trivial
  | symbolic shape => exact (succeeds_evaluate engine text).bind fun _ _ => .pure trivial
  | display shape =>
    refine (succeeds_evaluate engine text).bind fun value _ => ?_
    split
    · exact .pure trivial
    · exact (succeeds_display engine value).bind fun _ _ => .pure trivial
  | numeric =>
    refine (succeeds_evaluate engine text).bind fun value _ => ?_
    refine (succeeds_calculate engine text p.places).bind fun approximation _ => ?_
    exact hdrawing.bind fun _ _ => .pure trivial
  | assignment => exact .pure trivial

/-- The usual table has results for every shape but the blank one. -/
theorem Table.succeeds_dispatch (engine : Engine σ) {shape : Shape} (h : shape ≠ .blank)
    (text : String) (p : Parameters) :
    Succeeds settings (Table.standard.dispatch engine shape text p) fun _ => True := by
  obtain ⟨strategy, hget, -⟩ := Table.get?_standard h
  rw [Table.dispatch, hget]
  exact strategy.succeeds_run engine text p

/-- The calls of a service leave it ready, whatever its engines are. -/
theorem ready_preserved (engine : Engine σ) :
    Preserved engine (fun _ => True) (Ready settings) where
  validate expression s hs := by
    obtain ⟨outcome, s', hrun, hs', -⟩ := exists_validate engine hs expression
    rw [hrun]
    exact ⟨hs', fun _ _ => trivial⟩
  dropBlanks _ := trivial
  evaluate _ := (succeeds_evaluate engine _).keeps
  calculate _ _ := (succeeds_calculate engine _ _).keeps
  draw _ _ _ _ := (succeeds_draw engine _ _ _ _).keeps
  display r := (succeeds_display engine r).keeps
  cancel hs := ⟨⟨hs.gate.positive, hs.gate.free⟩, hs.settings_eq⟩
  forget hs := ⟨hs.gate, hs.settings_eq⟩

/-- A new service is ready, whatever lapses. -/
theorem Ready.of_make (h : make settings = .ok s) (lapsed : Nat → Key → Bool) :
    Ready settings (s.lapsing lapsed) := by
  obtain ⟨gate, hgate, rfl⟩ := exists_gate_of_make h
  exact ⟨Gate.ready_of_make hgate, rfl⟩

/-! ## Agreement -/

/-- The record of an expression says what the classification of the expression alone says. -/
def Agrees (expression : String) (record : Record) : Except Failure Shape → Prop
  | .ok shape => record.expression = expression ∧ record.shape = shape
  | .error e => record = ⟨expression, .unknown, [⟨.evaluation, ⟨expression, [e.message]⟩⟩]⟩

/-- The shape of an expression whose values are filled in. -/
def classifySubstituted (engine : Engine σ) (substituted : String) : Task σ Shape := do
  let text ← validate engine substituted
  classify engine (← getThe (Service σ)).settings.classification.places text

variable {expression text : String}

/-- A valid text is passed on. -/
theorem run_validateOrRefuse_ok {s' : Service σ}
    (h : (validate engine expression).run.run s = (.ok text, s')) :
    (validateOrRefuse engine expression).run.run s = (.ok (.ok text), s') := by
  unfold validateOrRefuse
  simp only [ExceptT.run_bind, StateT.run_bind, ExceptT.run_tryCatch, h]
  rfl

/-- A failure that can be reported becomes a refusal. -/
theorem run_validateOrRefuse_error {s' : Service σ} {e : Failure} (he : e.isRecoverable = true)
    (h : (validate engine expression).run.run s = (.error e, s')) :
    (validateOrRefuse engine expression).run.run s = (.ok (.error e), s') := by
  unfold validateOrRefuse
  simp only [ExceptT.run_bind, StateT.run_bind, ExceptT.run_tryCatch, h]
  cases e with
  | interrupted | misconfigured => cases he
  | unrecognized | forbidden | malformed | exceeded => rfl

/-- What follows the classification in a batch leaves the shape as it is. -/
theorem exists_evaluateSubstituted (engine : Engine σ) (hs : Ready settings s) (memory : Memory)
    {substituted : String} (hvisible : Validation.normalize substituted ≠ "") (expression : String)
    (p : Parameters) :
    ∃ record s', (evaluateSubstituted engine memory expression substituted p).run.run s =
        (.ok record, s') ∧
      Agrees expression record ((classifySubstituted engine substituted).run.run s).1 := by
  obtain ⟨outcome, s₁, hvalidate, hs₁, hnormal, hrefused⟩ := exists_validate engine hs substituted
  cases outcome with
  | error e =>
    have hrefuse := run_validateOrRefuse_error (hrefused e rfl) hvalidate
    refine ⟨.rejected expression e, s₁, ?_, ?_⟩
    · rw [evaluateSubstituted, run_bind_of_ok hrefuse]
      rfl
    · rw [classifySubstituted, run_bind_of_error hvalidate]
      rfl
  | ok text =>
    have htext := hnormal text rfl
    have hrefuse := run_validateOrRefuse_ok hvalidate
    obtain ⟨shape, s₂, hclassify, hs₂, hshape⟩ := succeeds_classify engine
      s₁.settings.classification.places (htext ▸ Validation.dropBlanks_normalize hvisible) s₁ hs₁
    have halone : (classifySubstituted engine substituted).run.run s = (.ok shape, s₂) := by
      rw [classifySubstituted, run_bind_of_ok hvalidate]
      exact hclassify
    rw [halone, evaluateSubstituted, run_bind_of_ok hrefuse]
    dsimp only
    rw [run_read, run_bind_of_ok hclassify]
    split
    · -- Only an expression of unknown shape is refused for a word, and its record says so.
      rename_i symbol hsymbol
      have hunknown : shape = .unknown := by
        by_contra hne
        rw [if_neg hne] at hsymbol
        cases hsymbol
      exact ⟨_, s₂, rfl, rfl, hunknown.symm⟩
    · obtain ⟨results, s₃, hdispatch, -⟩ := Table.succeeds_dispatch engine hshape text p s₂ hs₂
      exact ⟨⟨expression, shape, results⟩, s₃, run_bind_of_ok hdispatch, rfl, rfl⟩

/-- The same holds for an expression as it was given. -/
theorem exists_evaluateOne (engine : Engine σ) (hs : Ready settings s) {expression : String}
    (hlength : expression.length ≤ settings.limits.expressionLength) (p : Parameters) :
    ∃ one s', (evaluateOne engine p .initial expression).run.run s = (.ok one, s') ∧
      Agrees expression one.1 ((classifyAlone engine expression).run.run s).1 := by
  have hfits : ¬ s.settings.limits.expressionLength < expression.length := by
    rw [hs.settings_eq]
    exact Nat.not_lt_of_le hlength
  rw [evaluateOne, run_read, classifyAlone]
  dsimp only
  cases hblank : Text.allBlank expression.toList with
  | true => exact ⟨_, s, rfl, rfl, rfl⟩
  | false =>
    rw [if_neg Bool.false_ne_true, if_neg Bool.false_ne_true, if_neg hfits]
    cases happly : Memory.initial.apply expression with
    | mk outcome memory =>
      cases outcome with
      | assigned symbol value => exact ⟨_, s, rfl, rfl, rfl⟩
      | substituted u =>
        have hvisible : Validation.normalize (String.ofList u) ≠ "" := by
          rw [Memory.eq_substitute_of_apply (congrArg Prod.fst happly)]
          exact Memory.normalize_substitute_ne hblank
        obtain ⟨record, s', hrun, hagrees⟩ :=
          exists_evaluateSubstituted engine hs memory hvisible expression p
        exact ⟨(record, memory), s', run_bind_of_ok hrun, hagrees⟩

/-- A batch of one expression has one record, which agrees with the classification. -/
theorem exists_evaluateBatch (engine : Engine σ) (hvalid : settings.check = .ok ())
    (hs : Ready settings s) {expression : String}
    (hlength : expression.length ≤ settings.limits.expressionLength) (p : Parameters) :
    ∃ record s', (evaluateBatch engine p [expression]).run.run s = (.ok [record], s') ∧
      Agrees expression record ((classifyAlone engine expression).run.run s).1 := by
  have hfits : ¬ s.settings.limits.batchSize < [expression].length := by
    rw [hs.settings_eq, List.length_singleton]
    have hpositive := Settings.batchSize_ne_zero_of_check hvalid
    omega
  obtain ⟨one, s', hrun, hagrees⟩ := exists_evaluateOne engine hs hlength p
  refine ⟨one.1, s', ?_, hagrees⟩
  rw [evaluateBatch, run_read]
  dsimp only
  rw [if_neg hfits, evaluateAll, run_bind_of_ok hrun]
  rfl

/-- Whatever the engines are and whatever a service was asked for before, the shape of an expression
that is not too long is that of the only record of its batch. What it has no shape for is the only
problem of a record of unknown shape. If engines are renewed between calls, the record agrees with
the classification behind any other history as well. -/
theorem batchAfter_agrees {engine : Engine σ} (hvalid : settings.check = .ok ()) :
    ∃ s : Service σ, make settings = .ok s ∧
      ∀ (lapsed : Nat → Key → Bool) (history : List Request) (p : Parameters) (expression : String),
        expression.length ≤ settings.limits.expressionLength →
        ∃ record, batchAfter engine (s.lapsing lapsed) history p [expression] = .ok [record] ∧
          Agrees expression record ((classifyAlone engine expression).run
            ((s.lapsing lapsed).session engine history).2).1 ∧
          (engine.Renewable → ∀ lapsed' history', Agrees expression record
            ((classifyAlone engine expression).run
              ((s.lapsing lapsed').session engine history').2).1) := by
  obtain ⟨s, hmake, htidy⟩ := @Tidy.exists_make σ engine settings hvalid
  refine ⟨s, hmake, fun lapsed history p expression hlength => ?_⟩
  have hbatch (lapsed' : Nat → Key → Bool) (history' : List Request) :
      ∃ record, batchAfter engine (s.lapsing lapsed') history' p [expression] = .ok [record] ∧
        Agrees expression record ((classifyAlone engine expression).run
          ((s.lapsing lapsed').session engine history').2).1 := by
    have hready : Ready settings (s.lapsing lapsed') := .of_make hmake lapsed'
    obtain ⟨record, s', hrun, hagrees⟩ := exists_evaluateBatch engine hvalid
      ((ready_preserved engine).session hready history') hlength p
    exact ⟨record, congrArg Prod.fst hrun, hagrees⟩
  obtain ⟨record, hrecord, hagrees⟩ := hbatch lapsed history
  refine ⟨record, hrecord, hagrees, fun hengine lapsed' history' => ?_⟩
  obtain ⟨outcome, run, -, -, -, hafter⟩ := exists_batches hengine settings p
  obtain ⟨other, hother, hagrees'⟩ := hbatch lapsed' history'
  rw [hafter _ (htidy.lapsing lapsed)] at hrecord
  rw [hafter _ (htidy.lapsing lapsed'), hrecord] at hother
  cases hother
  exact hagrees'

/-- A letter that was bound in an earlier batch stands for nothing in its own one. The record that
refuses it has the shape that a new service finds for it alone. -/
theorem batchAfter_agrees_unbound :
    ∃ s : Service Builtin.State, make {} = .ok s ∧ ∃ record,
      batchAfter Engine.builtin (s.lapsing fun n _ => n % 2 == 0)
        [.evaluate ["a=1/3", "a+2"] {}, .cancel, .classify "a"] {} ["a"] = .ok [record] ∧
      record.expression = "a" ∧ record.shape = .unknown ∧
      ((classifyAlone Engine.builtin "a").run s).1 = .ok .unknown := by
  obtain ⟨s, hmake, hagrees⟩ := @batchAfter_agrees _ {} Engine.builtin rfl
  obtain ⟨record, hrecord, -, hany⟩ := hagrees (fun n _ => n % 2 == 0)
    [.evaluate ["a=1/3", "a+2"] {}, .cancel, .classify "a"] {} "a" (by decide)
  have halone : ((classifyAlone Engine.builtin "a").run s).1 = .ok .unknown := by
    cases hmake
    decide +kernel
  have hs : s.lapsing (fun _ _ => false) = s := by
    cases hmake
    rfl
  have h := hany Engine.builtin_renewable (fun _ _ => false) []
  rw [hs, session, halone] at h
  exact ⟨s, hmake, record, hrecord, h.1, h.2, halone⟩

end Service

end Reckoner
