import Reckoner.Proofs.Service.Keys
import Reckoner.Proofs.Service.Sessions
import Reckoner.Proofs.Shape.Strokes

/-!
# Captured assignments

A batch takes in an assignment before anything is classified. What is left for the classification
is a text that the built-in engine reads, and its value as the engine prints it; neither of them has
the shape of an assignment. So the record of an expression has that shape exactly if the assignments
before it were joined by the expression.
-/

namespace Reckoner

/-- Without the pattern of an assignment, a text does not have the shape of one. -/
theorem Shape.ofChars_ne_assignment {s : List Char} (h : isAssignment s = false) :
    ofChars s ≠ .assignment := by
  unfold ofChars
  rw [h, if_neg Bool.false_ne_true]
  repeat' split
  all_goals decide

/-- A result takes along the warnings that were given until it came. -/
theorem Builtin.State.finish_eq {s : State} {r : Bool → Run String}
    {outcome : Except EngineError String} {warnings : List String}
    (h : (r s.stop).run.run s.warnings = (outcome, warnings)) :
    (s.finish r).1 = outcome.map (⟨·, warnings⟩) := by
  have hrun : ExceptT.run (r s.stop) s.warnings = (outcome, warnings) := h
  unfold finish
  rw [hrun]
  cases outcome <;> rfl

namespace Memory

/-- The assignments behind an expression; blank and too long ones are not looked at. -/
def next (limit : Nat) (m : Memory) (expression : String) : Memory :=
  if Text.allBlank expression.toList || limit < expression.length then m
  else (m.apply expression).2

/-- The assignments behind expressions. -/
def behind (limit : Nat) (m : Memory) (expressions : List String) : Memory :=
  expressions.foldl (next limit) m

/-- The expression is taken in as an assignment. -/
def Captures (m : Memory) (expression : String) : Prop :=
  ∃ symbol value, (m.apply expression).1 = .assigned symbol value

end Memory

namespace Service

open Validation (Checked)

variable {settings : Settings} {text : String}

/-! ## Shapes -/

/-- A checked text does not look like an assignment. -/
theorem literal_ne_assignment (h : Checked text) : shapeOf text ≠ .assignment := by
  obtain ⟨e, hparse⟩ := h.parses
  obtain ⟨ts, hts, -⟩ := Grammar.derives_of_parse hparse
  have hblank : Text.dropBlanks text.toList = text.toList := by
    rw [← String.toList_ofList (l := Text.dropBlanks text.toList), h.dropBlanks_eq]
  rw [shapeOf, hblank]
  exact Shape.ofChars_ne_assignment (Shape.isAssignment_of_scanAll (congrArg Prod.snd hts))

/-- Neither does its value. -/
theorem value_ne_assignment (h : Checked text) :
    shapeOf (Key.answer Engine.builtin (.evaluate text)).result.text ≠ .assignment := by
  obtain ⟨e, hparse⟩ := h.parses
  have hread : Builtin.parse text = .ok e := by rw [Builtin.parse, hparse]
  generalize hrun : (Builtin.evaluate text false).run.run [] = r
  obtain ⟨outcome, warnings⟩ := r
  have hanswer : Key.answer Engine.builtin (.evaluate text) =
      .ofOutcome text (outcome.map (⟨·, warnings⟩)) :=
    congrArg (Call.ofOutcome text) (Builtin.State.finish_eq hrun)
  rw [hanswer]
  cases outcome with
  | error e => exact literal_ne_assignment h
  | ok value =>
    obtain ⟨c, _, hc, hvalue⟩ := Run.exists_of_bind hrun
    cases hvalue
    have hsimplify : (e.simplify false).run.run [] = (.ok c, warnings) := by
      rw [Builtin.simplified, hread] at hc
      exact hc
    exact Shape.ofChars_ne_assignment
      (Expr.paired_simplify hparse hsimplify none).dropBlanks.isAssignment_eq

/-- The calls of a service over the built-in engine leave it tidy. -/
theorem tidy_preserved : Preserved Engine.builtin Checked (Tidy Engine.builtin settings) where
  validate expression s hs :=
    ⟨((steady_validate Engine.builtin_renewable expression).keeps s hs).1,
      fun _ => checked_of_validate⟩
  dropBlanks h := by rwa [h.dropBlanks_eq]
  evaluate _ := (steady_evaluate Engine.builtin_renewable _).keeps.mono fun _ _ => trivial
  calculate _ _ := (steady_calculate Engine.builtin_renewable _ _).keeps.mono fun _ _ => trivial
  draw _ _ _ _ := (steady_draw Engine.builtin_renewable _ _ _ _).keeps.mono fun _ _ => trivial
  display r := (steady_display Engine.builtin_renewable r).keeps.mono fun _ _ => trivial
  cancel hs := hs.cancel Engine.builtin_renewable
  forget hs := hs.forget

/-- The classification of a checked text finds no assignment. -/
theorem keeps_classify_unassigned (h : Checked text) (places : Nat) :
    Keeps (Tidy Engine.builtin settings) (classify Engine.builtin places text)
      (· ≠ .assignment) := by
  have hliteral : Shape.ofChars (Text.dropBlanks text.toList) ≠ .assignment :=
    literal_ne_assignment h
  unfold classify
  dsimp only
  split
  · exact .pure (by decide)
  rw [h.dropBlanks_eq]
  refine (steady_evaluate Engine.builtin_renewable text).keeps.bind fun value hvalue => ?_
  obtain rfl := Except.ok.inj hvalue
  split
  · refine (tidy_preserved.calculate h places).bind fun approximation _ => ?_
    split
    · exact .pure (by decide)
    · exact .pure (by decide)
  · exact .pure hliteral
  · exact .pure hliteral
  · exact .pure (value_ne_assignment h)

/-! ## Records -/

variable (p : Parameters) (memory : Memory)

/-- What is not taken in as an assignment does not become one. -/
theorem keeps_evaluateSubstituted_unassigned (expression substituted : String) :
    Keeps (Tidy Engine.builtin settings)
      (evaluateSubstituted Engine.builtin memory expression substituted p)
      fun record => record.shape ≠ .assignment := by
  unfold evaluateSubstituted
  refine (tidy_preserved.validateOrRefuse substituted).bind fun checked hchecked => ?_
  cases checked with
  | error e => exact .pure fun h => by cases h
  | ok text =>
    have htext : Checked text := hchecked text rfl
    refine Keeps.read fun s _ => ?_
    refine (keeps_classify_unassigned htext _).bind fun shape hshape => ?_
    dsimp only
    split
    · exact .pure fun h => by cases h
    · exact (tidy_preserved.dispatch htext _ _ _).bind fun _ _ => .pure hshape

/-- The record of a single expression says whether it was taken in, and the memory goes on. -/
theorem keeps_evaluateOne_captures (expression : String) :
    Keeps (Tidy Engine.builtin settings) (evaluateOne Engine.builtin p memory expression)
      fun one => one.2 = memory.next settings.limits.expressionLength expression ∧
        (Text.allBlank expression.toList = false →
          expression.length ≤ settings.limits.expressionLength →
          (one.1.shape = .assignment ↔ memory.Captures expression)) := by
  unfold evaluateOne
  refine Keeps.read fun s hs => ?_
  dsimp only
  rw [hs.limits]
  split
  · rename_i hblank
    refine .pure ⟨?_, fun hvisible => ?_⟩
    · rw [Memory.next, hblank, Bool.true_or, if_pos rfl]
    · rw [hblank] at hvisible
      cases hvisible
  rename_i hvisible
  split
  · rename_i hlong
    refine .pure ⟨?_, fun _ hfits => absurd hlong (Nat.not_lt_of_le hfits)⟩
    rw [Memory.next, if_pos (by simp [hlong])]
  rename_i hfits
  have hnext : memory.next settings.limits.expressionLength expression =
      (memory.apply expression).2 := by
    rw [Memory.next, if_neg (by simp [hvisible, hfits])]
  rw [hnext]
  split
  · rename_i symbol value next happly
    refine (Preserved.dispatch_assignment expression p).bind fun _ _ => .pure ⟨?_, fun _ _ => ?_⟩
    · rw [happly]
    · exact ⟨fun _ => ⟨symbol, value, by rw [happly]⟩, fun _ => rfl⟩
  · rename_i u next happly
    refine (keeps_evaluateSubstituted_unassigned p next expression _).bind
      fun record hrecord => .pure ⟨by rw [happly], fun _ _ => ?_⟩
    refine ⟨fun h => absurd h hrecord, ?_⟩
    rintro ⟨symbol, value, hassigned⟩
    rw [happly] at hassigned
    cases hassigned

/-! ## Batches -/

/-- Every record has the property, given its expression and the assignments before it. -/
def Answers (limit : Nat) (Q : Memory → String → Record → Prop) (memory : Memory)
    (expressions : List String) (records : List Record) : Prop :=
  records.length = expressions.length ∧ ∀ (i : Nat) (expression : String) (record : Record),
    expressions[i]? = some expression → records[i]? = some record →
      Q (memory.behind limit (expressions.take i)) expression record

section

variable {σ : Type} {engine : Engine σ} {I : Service σ → Prop} {limit : Nat}
  {Q : Memory → String → Record → Prop}

/-- What holds of the record of a single expression holds of each record. -/
theorem keeps_evaluateAll_answers
    (hone : ∀ memory expression, Keeps I (evaluateOne engine p memory expression) fun one =>
      one.2 = memory.next limit expression ∧ Q memory expression one.1)
    (memory : Memory) (expressions : List String) :
    Keeps I (evaluateAll engine p memory expressions) (Answers limit Q memory expressions) := by
  induction expressions generalizing memory with
  | nil => exact .pure ⟨rfl, fun i _ _ hi _ => by cases hi⟩
  | cons expression rest ih =>
    refine (hone memory expression).bind fun one hfirst => ?_
    obtain ⟨record, next⟩ := one
    obtain ⟨hnext, hrecord⟩ := hfirst
    dsimp only at hnext hrecord
    subst hnext
    refine (ih _).bind fun records hrecords => .pure ⟨congrArg (· + 1) hrecords.1, ?_⟩
    intro i expression' record' hexpression' hrecord'
    cases i with
    | zero =>
      cases hexpression'
      cases hrecord'
      exact hrecord
    | succ i => exact hrecords.2 i _ _ hexpression' hrecord'

/-- A batch answers its expressions one by one, each behind the memory of those before it. -/
theorem keeps_evaluateBatch_answers
    (hone : ∀ memory expression, Keeps I (evaluateOne engine p memory expression) fun one =>
      one.2 = memory.next limit expression ∧ Q memory expression one.1)
    (expressions : List String) :
    Keeps I (evaluateBatch engine p expressions) (Answers limit Q .initial expressions) := by
  unfold evaluateBatch
  refine Keeps.read fun s _ => ?_
  dsimp only
  split
  · exact .throw _
  · exact keeps_evaluateAll_answers p hone .initial expressions

end

/-- An expression that is neither blank nor too long has the record of an assignment exactly if it
is taken in as one, behind the expressions before it. -/
def Marks (limit : Nat) (memory : Memory) (expressions : List String) (records : List Record) :
    Prop :=
  ∀ (i : Nat) (hi : i < expressions.length), Text.allBlank expressions[i].toList = false →
    expressions[i].length ≤ limit → ∃ record, records[i]? = some record ∧
      (record.shape = .assignment ↔
        (memory.behind limit (expressions.take i)).Captures expressions[i])

/-- A batch marks its assignments. -/
theorem keeps_evaluateBatch_marks (expressions : List String) :
    Keeps (Tidy Engine.builtin settings) (evaluateBatch Engine.builtin p expressions)
      (Marks settings.limits.expressionLength .initial expressions) := by
  refine (keeps_evaluateBatch_answers p (Q := fun memory expression record =>
    Text.allBlank expression.toList = false →
      expression.length ≤ settings.limits.expressionLength →
      (record.shape = .assignment ↔ memory.Captures expression))
    (keeps_evaluateOne_captures p) expressions).mono ?_
  intro records hrecords i hi hvisible hfits
  have hi' : i < records.length := hrecords.1 ▸ hi
  exact ⟨records[i], List.getElem?_eq_getElem hi', hrecords.2 i _ _ (List.getElem?_eq_getElem hi)
    (List.getElem?_eq_getElem hi') hvisible hfits⟩

/-- Behind any history, the records of a batch are those of assignments exactly where its memory
takes one in, and what is validated is never classified as an assignment. -/
theorem batchAfter_marks (hvalid : settings.check = .ok ()) :
    ∃ s : Service Builtin.State, make settings = .ok s ∧
      ∀ (lapsed : Nat → Key → Bool) (history : List Request),
        (∀ p expressions records,
          batchAfter Engine.builtin (s.lapsing lapsed) history p expressions = .ok records →
            Marks settings.limits.expressionLength .initial expressions records) ∧
        ∀ expression places, (((do
            classify Engine.builtin places (← validate Engine.builtin expression) :
              Task Builtin.State Shape)).run
          ((s.lapsing lapsed).session Engine.builtin history).2).1 ≠ .ok .assignment := by
  obtain ⟨s, hmake, hs⟩ := @Tidy.exists_make _ Engine.builtin settings hvalid
  refine ⟨s, hmake, fun lapsed history => ?_⟩
  have htidy := (hs.lapsing lapsed).session Engine.builtin_renewable history
  constructor
  · intro p expressions records hrecords
    exact (keeps_evaluateBatch_marks p expressions _ htidy).2 records hrecords
  · intro expression places hshape
    have hkeeps : Keeps (Tidy Engine.builtin settings) (do
        classify Engine.builtin places (← validate Engine.builtin expression)) (· ≠ .assignment) :=
      (tidy_preserved.validate expression).bind fun _ htext =>
        keeps_classify_unassigned htext places
    exact (hkeeps _ htidy).2 .assignment hshape rfl

/-- A letter with two strokes behind each other or apart is not taken in, and its record says so;
with one stroke it is. -/
theorem batchAfter_marks_strokes :
    ∃ s : Service Builtin.State, make {} = .ok s ∧ ∃ records,
      batchAfter Engine.builtin (s.lapsing fun _ _ => true) [.evaluate ["a=3"] {}, .cancel] {}
        ["b=2", "a=b=c", " ", "a=b", "a==x"] = .ok records ∧
      (∃ record, records[1]? = some record ∧ record.shape ≠ .assignment) ∧
      (∃ record, records[3]? = some record ∧ record.shape = .assignment) ∧
      ∃ record, records[4]? = some record ∧ record.shape ≠ .assignment := by
  obtain ⟨s, hmake, hmarks⟩ := @batchAfter_marks {} rfl
  have hrecords := (hmarks (fun _ _ => true) [.evaluate ["a=3"] {}, .cancel]).1 {}
    ["b=2", "a=b=c", " ", "a=b", "a==x"]
  obtain ⟨records, hbatch⟩ := Validation.exists_of_isOk
    (x := batchAfter Engine.builtin (s.lapsing fun _ _ => true) [.evaluate ["a=3"] {}, .cancel] {}
      ["b=2", "a=b=c", " ", "a=b", "a==x"]) (by cases hmake; decide +kernel)
  have h := hrecords records hbatch
  have hletters : ((Memory.initial.behind 2000 ["b=2"]).apply "a=b=c").1 =
      .substituted "a=2=c".toList := by decide +kernel
  have hequation : ((Memory.initial.behind 2000 ["b=2", "a=b=c", " ", "a=b"]).apply "a==x").1 =
      .substituted "2==x".toList := by decide +kernel
  obtain ⟨first, hfirst, hchain⟩ := h 1 (by decide) (by decide) (by decide)
  obtain ⟨third, hthird, htaken⟩ := h 3 (by decide) (by decide) (by decide)
  obtain ⟨last, hlast, hpair⟩ := h 4 (by decide) (by decide) (by decide)
  refine ⟨s, hmake, records, hbatch, ⟨first, hfirst, fun hshape => ?_⟩,
    ⟨third, hthird, htaken.mpr ⟨'a', ['2'], by decide +kernel⟩⟩, last, hlast, fun hshape => ?_⟩
  · obtain ⟨_, _, hassigned⟩ := hchain.mp hshape
    cases hletters.symm.trans hassigned
  · obtain ⟨_, _, hassigned⟩ := hpair.mp hshape
    cases hequation.symm.trans hassigned

end Service

end Reckoner
