import Reckoner.Proofs.Memory.Unbound
import Reckoner.Proofs.Service.Agreement
import Reckoner.Proofs.Service.Captures

/-!
# Unbound symbols of a batch

An expression without a shape is refused for a symbol that is unbound once the values are filled in.
The memory is asked for it that filled them in, so a symbol that a value brings along passes if it
is bound by then. Where none is passed on in this way, no expression without a shape keeps a symbol.
-/

namespace Reckoner

namespace Memory

open Text

variable {m : Memory}

/-- Values have no blanks behind a batch either. -/
theorem Blankless.behind (hm : m.Blankless) (limit : Nat) (expressions : List String) :
    (m.behind limit expressions).Blankless := by
  induction expressions generalizing m with
  | nil => exact hm
  | cons expression rest ih =>
    refine ih ?_
    unfold next
    split
    · exact hm
    · exact hm.apply expression

/-- The symbols of an expression with its values are bound, and there are some exactly if a bound
one is passed on. -/
def Settles (m : Memory) (expression : String) : Prop :=
  ∃ u, (m.apply expression).1 = .substituted u ∧
    (∀ x ∈ symbols (Validation.normalize (String.ofList u)).toList,
      (m.binding? x).isSome = true) ∧
    (symbols (Validation.normalize (String.ofList u)).toList = [] ↔
      ¬ m.PassesOn (dropBlanks expression.toList))

/-- A text without unbound symbols is settled. -/
theorem Blankless.settles (hm : m.Blankless) {expression : String} {u : List Char}
    (happly : (m.apply expression).1 = .substituted u)
    (hunbound : m.unboundSymbols (Validation.normalize (String.ofList u)) = []) :
    m.Settles expression := by
  have hbound := unboundSymbols_eq_nil_iff.mp hunbound
  refine ⟨u, happly, hbound, ?_⟩
  obtain rfl := eq_substitute_of_apply happly
  rw [symbols_normalize (hm.substitute fun _ => isBlank_of_mem_dropBlanks)] at hbound ⊢
  exact symbols_substitute_eq_nil_iff hbound

end Memory

namespace Service

variable {σ : Type} {engine : Engine σ} {settings : Settings} (p : Parameters) (memory : Memory)

/-- The record refuses the expression for a problem. -/
def Refuses (expression : String) (record : Record) : Prop :=
  ∃ problem, record = ⟨expression, .unknown, [⟨.evaluation, ⟨expression, [problem]⟩⟩]⟩

/-- A rejection refuses its expression. -/
theorem refuses_rejected (expression : String) (cause : Failure) :
    Refuses expression (.rejected expression cause) :=
  ⟨cause.message, rfl⟩

/-- What is not refused is the normal form. -/
theorem keeps_validateOrRefuse_normal (expression : String) :
    Keeps (Ready settings) (validateOrRefuse engine expression) fun checked =>
      ∀ text, checked = .ok text → text = Validation.normalize expression := by
  intro s hs
  obtain ⟨outcome, s', hrun, hs', hnormal, hrefused⟩ := exists_validate engine hs expression
  cases outcome with
  | ok text =>
    rw [run_validateOrRefuse_ok hrun]
    refine ⟨hs', ?_⟩
    rintro _ ⟨⟩ _ ⟨⟩
    exact hnormal _ rfl
  | error e =>
    rw [run_validateOrRefuse_error (hrefused e rfl) hrun]
    refine ⟨hs', ?_⟩
    rintro _ ⟨⟩ _ ⟨⟩

/-- An expression without a shape is refused, or none of its symbols is unbound. -/
theorem keeps_evaluateSubstituted_unknown (expression substituted : String) :
    Keeps (Ready settings) (evaluateSubstituted engine memory expression substituted p)
      fun record => record.shape = .unknown → Refuses expression record ∨
        memory.unboundSymbols (Validation.normalize substituted) = [] := by
  unfold evaluateSubstituted
  refine (keeps_validateOrRefuse_normal substituted).bind fun checked hchecked => ?_
  cases checked with
  | error e => exact .pure fun _ => .inl (refuses_rejected expression e)
  | ok text =>
    obtain rfl := hchecked text rfl
    refine Keeps.read fun s _ => ?_
    refine ((ready_preserved engine).classify trivial _).bind fun shape _ => ?_
    dsimp only
    split
    · exact .pure fun _ => .inl (refuses_rejected expression _)
    · rename_i hunbound
      refine ((ready_preserved engine).dispatch trivial _ _ _).bind fun results _ => .pure ?_
      intro hshape
      have hshape : shape = .unknown := hshape
      rw [if_pos hshape] at hunbound
      exact .inr (List.head?_eq_none_iff.mp hunbound)

/-- A single expression without a shape is refused, or its values are filled in and none of its
symbols is unbound. -/
theorem keeps_evaluateOne_unknown (expression : String) :
    Keeps (Ready settings) (evaluateOne engine p memory expression) fun one =>
      one.2 = memory.next settings.limits.expressionLength expression ∧
        (one.1.shape = .unknown → Refuses expression one.1 ∨
          ∃ u, (memory.apply expression).1 = .substituted u ∧
            memory.unboundSymbols (Validation.normalize (String.ofList u)) = []) := by
  unfold evaluateOne
  refine Keeps.read fun s hs => ?_
  dsimp only
  rw [hs.settings_eq]
  split
  · rename_i hblank
    exact .pure ⟨by rw [Memory.next, hblank, Bool.true_or, if_pos rfl], fun h => by cases h⟩
  rename_i hvisible
  split
  · rename_i hlong
    refine .pure ⟨?_, fun _ => .inl (refuses_rejected expression _)⟩
    rw [Memory.next, if_pos (by simp [hlong])]
  rename_i hfits
  have hnext : memory.next settings.limits.expressionLength expression =
      (memory.apply expression).2 := by
    rw [Memory.next, if_neg (by simp [hvisible, hfits])]
  rw [hnext]
  split
  · rename_i symbol value next happly
    refine (Preserved.dispatch_assignment expression p).bind fun _ _ => .pure ⟨by rw [happly], ?_⟩
    exact fun h => by cases h
  · rename_i u next happly
    obtain rfl : memory = next := (eq_of_apply_substituted happly).symm
    refine (keeps_evaluateSubstituted_unknown p memory expression _).bind fun record hrecord =>
      .pure ⟨by rw [happly], fun hshape => (hrecord hshape).imp_right fun hunbound => ?_⟩
    exact ⟨u, by rw [happly], hunbound⟩

/-- Whatever the engines are and behind any history, a record without a shape refuses its
expression, or the symbols that the expression has with its values are bound; there are none of them
exactly if no word of the expression passes a bound symbol on. -/
theorem batchAfter_unknown {engine : Engine σ} (hvalid : settings.check = .ok ()) :
    ∃ s : Service σ, make settings = .ok s ∧
      ∀ (lapsed : Nat → Key → Bool) (history : List Request) (p : Parameters)
        (expressions : List String) (records : List Record),
        batchAfter engine (s.lapsing lapsed) history p expressions = .ok records →
        records.length = expressions.length ∧
        ∀ (i : Nat) (expression : String) (record : Record),
          expressions[i]? = some expression → records[i]? = some record →
          record.shape = .unknown → Refuses expression record ∨
            (Memory.initial.behind settings.limits.expressionLength
              (expressions.take i)).Settles expression := by
  obtain ⟨s, hmake, -⟩ := @Tidy.exists_make σ engine settings hvalid
  refine ⟨s, hmake, fun lapsed history p expressions records hrecords => ?_⟩
  have hready : Ready settings (s.lapsing lapsed) := .of_make hmake lapsed
  have hanswers := (keeps_evaluateBatch_answers p (Q := fun memory expression record =>
    record.shape = .unknown → Refuses expression record ∨
      ∃ u, (memory.apply expression).1 = .substituted u ∧
        memory.unboundSymbols (Validation.normalize (String.ofList u)) = [])
    (keeps_evaluateOne_unknown p) expressions _
    ((ready_preserved engine).session hready history)).2 records hrecords
  refine ⟨hanswers.1, fun i expression record hexpression hrecord hshape => ?_⟩
  refine (hanswers.2 i expression record hexpression hrecord hshape).imp_right ?_
  rintro ⟨u, happly, hunbound⟩
  exact (Memory.blankless_initial.behind _ _).settles happly hunbound

/-- A text without symbols, a value whose symbol is not bound, and the same one when it is. -/
theorem batchAfter_unknown_bound :
    ∃ s : Service Builtin.State, make {} = .ok s ∧ ∃ records,
      batchAfter Engine.builtin (s.lapsing fun n _ => n % 2 == 0) [.evaluate ["b=1"] {}, .cancel] {}
        ["True<1", "a=b", "a<1", "b=2", "a<1"] = .ok records ∧
      records.map Record.shape = [.unknown, .assignment, .unknown, .assignment, .unknown] ∧
      (∃ record, records[0]? = some record ∧
        (Refuses "True<1" record ∨ Memory.initial.Settles "True<1")) ∧
      (∃ record, records[2]? = some record ∧ (Refuses "a<1" record ∨
        (Memory.initial.behind 2000 ["True<1", "a=b"]).Settles "a<1")) ∧
      ∃ record, records[4]? = some record ∧ (Refuses "a<1" record ∨
        (Memory.initial.behind 2000 ["True<1", "a=b", "a<1", "b=2"]).Settles "a<1") := by
  obtain ⟨s, hmake, hunknown⟩ := @batchAfter_unknown _ {} Engine.builtin rfl
  have hbatch : batchAfter Engine.builtin (s.lapsing fun n _ => n % 2 == 0)
      [.evaluate ["b=1"] {}, .cancel] {} ["True<1", "a=b", "a<1", "b=2", "a<1"] =
        .ok [⟨"True<1", .unknown, [⟨.evaluation, ⟨"True<1", []⟩⟩, ⟨.drawing,
            ⟨"True<1", ["Evaluation error: 'True<1' cannot be drawn"]⟩⟩]⟩,
          ⟨"a=b", .assignment, []⟩,
          .rejected "a<1" (.unrecognized "b"),
          ⟨"b=2", .assignment, []⟩,
          ⟨"a<1", .unknown, [⟨.evaluation, ⟨"b<1", []⟩⟩, ⟨.drawing,
            ⟨"b<1", ["Evaluation error: 'b<1' cannot be drawn"]⟩⟩]⟩] := by
    cases hmake
    decide +kernel
  have hrecords := (hunknown _ _ _ _ _ hbatch).2
  exact ⟨s, hmake, _, hbatch, rfl, ⟨_, rfl, hrecords 0 _ _ rfl rfl rfl⟩,
    ⟨_, rfl, hrecords 2 _ _ rfl rfl rfl⟩, ⟨_, rfl, hrecords 4 _ _ rfl rfl rfl⟩⟩

/-- An expression without a shape keeps a symbol that was bound behind the value with it. -/
theorem batchAfter_keeps_symbol :
    ∃ s : Service Builtin.State, make {} = .ok s ∧ ∃ records record u,
      batchAfter Engine.builtin s [] {} ["a=b", "b=2", "a<1"] = .ok records ∧
      records[2]? = some record ∧ record.shape = .unknown ∧ ¬ Refuses "a<1" record ∧
      ((Memory.initial.behind 2000 ["a=b", "b=2"]).apply "a<1").1 = .substituted u ∧
      Text.symbols (Validation.normalize (String.ofList u)).toList = ["b"] := by
  refine ⟨_, rfl, [⟨"a=b", .assignment, []⟩, ⟨"b=2", .assignment, []⟩, ⟨"a<1", .unknown,
    [⟨.evaluation, ⟨"b<1", []⟩⟩,
      ⟨.drawing, ⟨"b<1", ["Evaluation error: 'b<1' cannot be drawn"]⟩⟩]⟩],
    _, ['b', '<', '1'], by decide +kernel, rfl, rfl, ?_, by decide +kernel, by decide +kernel⟩
  rintro ⟨problem, h⟩
  cases congrArg (fun record => record.results.length) h

end Service

end Reckoner
