import Mathlib.Data.List.Forall2
import Reckoner.Proofs.Service.Sessions

/-!
# Batches of expressions

A batch that is not too long has a well-shaped record for each of its expressions. A record depends
on the assignments before it, and on nothing else: the other expressions before it can be left out,
those behind it do not matter, and neither does what was asked for before the batch.
-/

namespace Reckoner.Service

variable {σ : Type} {engine : Engine σ} {outcome : Outcome}

/-- The built-in engine does not read the empty text. -/
theorem verdict_builtin_empty (c : String) : verdict Engine.builtin "" ≠ .ok c := by
  have hrefused : (verdict Engine.builtin "").isOk = false := by decide +kernel
  intro h
  rw [h] at hrefused
  cases hrefused

/-! ## Trails -/

namespace Trail

variable {memory next last : Memory} {front rest expressions : List String}
  {records behind : List Record}

/-- Every expression has a record. -/
theorem length_eq (h : Trail outcome memory expressions records last) :
    records.length = expressions.length := by
  induction h with
  | nil => rfl
  | cons _ _ ih => rw [List.length_cons, List.length_cons, ih]

/-- The records of expressions are determined. -/
theorem unique {records' : List Record} {last' : Memory}
    (h : Trail outcome memory expressions records last)
    (h' : Trail outcome memory expressions records' last') : records = records' ∧ last = last' := by
  induction h generalizing records' last' with
  | nil =>
    cases h'
    exact ⟨rfl, rfl⟩
  | cons one _ ih =>
    cases h' with
    | cons one' more' =>
      cases one.symm.trans one'
      obtain ⟨hrecords, hlast⟩ := ih more'
      exact ⟨congrArg _ hrecords, hlast⟩

/-- A trail goes on with the assignments it leads to. -/
theorem append (h : Trail outcome memory front records next)
    (hrest : Trail outcome next rest behind last) :
    Trail outcome memory (front ++ rest) (records ++ behind) last := by
  induction h with
  | nil => exact hrest
  | cons one _ ih => exact .cons one (ih hrest)

/-- A trail can be parted anywhere. -/
theorem exists_append {all : List Record} (h : Trail outcome memory (front ++ rest) all last) :
    ∃ records behind next, all = records ++ behind ∧ Trail outcome memory front records next ∧
      Trail outcome next rest behind last := by
  induction front generalizing memory all with
  | nil => exact ⟨[], all, memory, rfl, .nil memory, h⟩
  | cons expression front ih =>
    cases h with
    | cons one more =>
      obtain ⟨records, behind, next, rfl, hfront, hrest⟩ := ih more
      exact ⟨_ :: records, behind, next, rfl, .cons one hfront, hrest⟩

/-- A single expression makes a trail. -/
theorem single {expression : String} {record : Record}
    (h : outcome memory expression = .ok (record, next)) :
    Trail outcome memory [expression] [record] next :=
  .cons h (.nil next)

/-- Records are well shaped. -/
theorem wellShaped (hsound : outcome.Sound engine)
    (h : Trail outcome memory expressions records last) :
    List.Forall₂ Record.WellShaped records expressions := by
  induction h with
  | nil => exact .nil
  | @cons memory _ _ expression _ _ _ one _ ih =>
    have hone := hsound memory expression
    rw [one] at hone
    exact .cons hone.1 ih

/-- An engine that does not read the empty text lets every trail go on. -/
theorem exists_of_empty (hsound : outcome.Sound engine) (hempty : ∀ c, verdict engine "" ≠ .ok c)
    (memory : Memory) (expressions : List String) :
    ∃ records last, Trail outcome memory expressions records last := by
  induction expressions generalizing memory with
  | nil => exact ⟨[], memory, .nil memory⟩
  | cons expression rest ih =>
    have hone := hsound memory expression
    cases houtcome : outcome memory expression with
    | error e =>
      rw [houtcome] at hone
      obtain ⟨c, hc⟩ := hone
      exact absurd hc (hempty c)
    | ok one =>
      obtain ⟨record, next⟩ := one
      obtain ⟨records, last, hmore⟩ := ih next
      exact ⟨record :: records, last, .cons houtcome hmore⟩

end Trail

/-! ## Assignments -/

/-- The expressions that were captured as assignments, according to their records. -/
def captured (expressions : List String) (records : List Record) : List String :=
  ((expressions.zip records).filter fun pair => pair.2.shape == .assignment).map Prod.fst

/-- An assignment is captured, and nothing else. -/
theorem captured_cons (expression : String) (rest : List String) (record : Record)
    (records : List Record) :
    captured (expression :: rest) (record :: records) =
      if record.shape = .assignment then expression :: captured rest records
      else captured rest records := by
  unfold captured
  rw [List.zip_cons_cons, List.filter_cons]
  by_cases h : record.shape = .assignment
  · rw [if_pos (beq_iff_eq.mpr h), if_pos h, List.map_cons]
  · rw [if_neg fun hshape => h (beq_iff_eq.mp hshape), if_neg h]

/-- The records behind those of the expressions do not matter. -/
theorem captured_append {expressions : List String} {records : List Record}
    (h : expressions.length = records.length) (behind : List Record) :
    captured expressions (records ++ behind) = captured expressions records := by
  unfold captured
  have hzip : (expressions ++ []).zip (records ++ behind) =
      expressions.zip records ++ [].zip behind := List.zip_append h
  rw [List.append_nil, List.zip_nil_left, List.append_nil] at hzip
  rw [hzip]

/-- No more expressions are captured than there are. -/
theorem length_captured_le (expressions : List String) (records : List Record) :
    (captured expressions records).length ≤ expressions.length :=
  calc (captured expressions records).length
      ≤ (expressions.zip records).length := by
        rw [captured, List.length_map]
        exact List.length_filter_le _ _
    _ ≤ expressions.length := by
        rw [List.length_zip]
        exact Nat.min_le_left _ _

/-- The assignments alone lead as far as all expressions. -/
theorem Trail.captured (hsound : outcome.Sound engine) {memory last : Memory}
    {expressions : List String} {records : List Record}
    (h : Trail outcome memory expressions records last) :
    ∃ assigned, Trail outcome memory (captured expressions records) assigned last := by
  induction h with
  | nil memory => exact ⟨[], .nil memory⟩
  | @cons memory next _ expression record _ _ one _ ih =>
    obtain ⟨assigned, hassigned⟩ := ih
    rw [captured_cons]
    split
    · exact ⟨record :: assigned, .cons one hassigned⟩
    · rename_i hshape
      have hone := hsound memory expression
      rw [one] at hone
      have hnext : next = memory := hone.2 hshape
      rw [← hnext]
      exact ⟨assigned, hassigned⟩

/-- Without an assignment, the memory stays as it was. -/
theorem Trail.memory_eq (hsound : outcome.Sound engine) {memory last : Memory}
    {expressions : List String} {records : List Record}
    (h : Trail outcome memory expressions records last)
    (hnone : Service.captured expressions records = []) : last = memory := by
  obtain ⟨assigned, hassigned⟩ := h.captured hsound
  rw [hnone] at hassigned
  cases hassigned
  rfl

/-! ## Accepted batches -/

/-- Accepted batches are those that are short enough and have a trail. -/
def Follows (outcome : Outcome) (limit : Nat)
    (run : List String → Except Failure (List Record)) : Prop :=
  ∀ expressions records, run expressions = .ok records ↔ expressions.length ≤ limit ∧
    ∃ last, Trail outcome .initial expressions records last

namespace Follows

variable {limit : Nat} {run : List String → Except Failure (List Record)}

/-- A record is the last one of the batch of the assignments before it and its expression. -/
theorem captured_eq (hrun : Follows outcome limit run) (hsound : outcome.Sound engine)
    {expressions : List String} {records : List Record} (h : run expressions = .ok records)
    {i : Nat} (hi : i < expressions.length) : ∃ record others, records[i]? = some record ∧
      run (captured (expressions.take i) records ++ [expressions[i]]) =
        .ok (others ++ [record]) := by
  obtain ⟨hfits, last, htrail⟩ := (hrun _ _).mp h
  have hparts : expressions.take i ++ expressions[i] :: expressions.drop (i + 1) = expressions := by
    rw [← List.drop_eq_getElem_cons hi, List.take_append_drop]
  rw [← hparts] at htrail
  obtain ⟨before, behind, next, rfl, hbefore, hbehind⟩ := htrail.exists_append
  cases hbehind with
  | @cons _ next' _ _ record _ behind one _ =>
    have hlength : (expressions.take i).length = before.length := hbefore.length_eq.symm
    obtain ⟨others, hothers⟩ := hbefore.captured hsound
    refine ⟨record, others, ?_, (hrun _ _).mpr ⟨?_, next', ?_⟩⟩
    · have hindex : before.length = i := by
        rw [← hlength, List.length_take_of_le (Nat.le_of_lt hi)]
      rw [← hindex, List.getElem?_append_right (Nat.le_refl _), Nat.sub_self]
      rfl
    · have hcaptured := length_captured_le (expressions.take i) (before ++ record :: behind)
      rw [List.length_take_of_le (Nat.le_of_lt hi)] at hcaptured
      rw [List.length_append, List.length_singleton]
      omega
    · rw [captured_append hlength]
      exact hothers.append (.single one)

/-- Later expressions do not matter. -/
theorem later_eq (hrun : Follows outcome limit run) {front rest rest' : List String}
    {records records' : List Record} (h : run (front ++ rest) = .ok records)
    (h' : run (front ++ rest') = .ok records') :
    records.take front.length = records'.take front.length := by
  obtain ⟨-, last, htrail⟩ := (hrun _ _).mp h
  obtain ⟨-, last', htrail'⟩ := (hrun _ _).mp h'
  obtain ⟨before, behind, next, rfl, hbefore, -⟩ := htrail.exists_append
  obtain ⟨before', behind', next', rfl, hbefore', -⟩ := htrail'.exists_append
  rw [List.take_left' hbefore.length_eq, List.take_left' hbefore'.length_eq]
  exact (hbefore.unique hbefore').1

/-- What comes behind expressions without an assignment goes on from where they started. -/
theorem exists_behind (hrun : Follows outcome limit run) (hsound : outcome.Sound engine)
    {front mid rest : List String} {records : List Record}
    (h : run (front ++ mid ++ rest) = .ok records)
    (hmid : captured mid (records.drop front.length) = []) :
    ∃ before next last, Trail outcome .initial front before next ∧
      Trail outcome next rest (records.drop (front ++ mid).length) last := by
  obtain ⟨-, last, htrail⟩ := (hrun _ _).mp h
  obtain ⟨_, behind, next, rfl, hbefore, hrest⟩ := htrail.exists_append
  obtain ⟨before, between, middle, rfl, hfront, hbetween⟩ := hbefore.exists_append
  rw [List.append_assoc, List.drop_left' hfront.length_eq,
    captured_append hbetween.length_eq.symm] at hmid
  cases hbetween.memory_eq hsound hmid
  rw [List.drop_left' hbefore.length_eq]
  exact ⟨before, _, last, hfront, hrest⟩

/-- Earlier expressions do not matter where none is captured as an assignment. -/
theorem earlier_eq (hrun : Follows outcome limit run) (hsound : outcome.Sound engine)
    {front mid mid' rest : List String} {records records' : List Record}
    (h : run (front ++ mid ++ rest) = .ok records)
    (h' : run (front ++ mid' ++ rest) = .ok records')
    (hmid : captured mid (records.drop front.length) = [])
    (hmid' : captured mid' (records'.drop front.length) = []) :
    records.drop (front ++ mid).length = records'.drop (front ++ mid').length := by
  obtain ⟨before, next, last, hfront, hrest⟩ := hrun.exists_behind hsound h hmid
  obtain ⟨before', next', last', hfront', hrest'⟩ := hrun.exists_behind hsound h' hmid'
  cases (hfront.unique hfront').2
  exact (hrest.unique hrest').1

end Follows

/-! ## Batches after a history -/

variable {settings : Settings}

/-- All batches of a service, whatever it was asked for before, are trails of the same outcomes. -/
theorem exists_batches (hengine : engine.Renewable) (settings : Settings) (p : Parameters) :
    ∃ (outcome : Outcome) (run : List String → Except Failure (List Record)),
      outcome.Sound engine ∧ Follows outcome settings.limits.batchSize run ∧
      (∀ expressions, settings.limits.batchSize < expressions.length →
        run expressions = .error (.exceeded "batch has too many expressions"
          settings.limits.batchSize expressions.length)) ∧
      ∀ s : Service σ, s.Tidy engine settings → ∀ history expressions,
        batchAfter engine s history p expressions = run expressions := by
  obtain ⟨outcome, hsound, hone⟩ := exists_outcome hengine settings p
  choose run hbatch hrun using fun expressions => steady_evaluateBatch hone expressions
  refine ⟨outcome, run, hsound, ?_, ?_, ?_⟩
  · intro expressions records
    have hexpressions := hbatch expressions
    split at hexpressions
    · rename_i hlong
      rw [hexpressions]
      exact ⟨nofun, fun h => absurd h.1 (Nat.not_le_of_lt hlong)⟩
    · rename_i hfits
      rw [hexpressions records]
      exact ⟨fun h => ⟨Nat.le_of_not_lt hfits, h⟩, fun h => h.2⟩
  · intro expressions hlong
    have hexpressions := hbatch expressions
    dsimp only at hexpressions
    rwa [if_pos hlong] at hexpressions
  · intro s hs history expressions
    obtain ⟨s', heq, -⟩ := hrun expressions _ (hs.session hengine history)
    exact congrArg Prod.fst heq

/-- Whatever it was asked for before, a service over the built-in engine refuses a batch if and only
if it is too long. Otherwise there is a well-shaped record for each expression, in order. -/
theorem batchAfter_wellShaped (hvalid : settings.check = .ok ()) :
    ∃ s : Service Builtin.State, make settings = .ok s ∧
      ∀ (lapsed : Nat → Key → Bool) (history : List Request) (p : Parameters)
        (expressions : List String),
        (∀ e, batchAfter Engine.builtin (s.lapsing lapsed) history p expressions = .error e ↔
          settings.limits.batchSize < expressions.length ∧
            e = .exceeded "batch has too many expressions" settings.limits.batchSize
              expressions.length) ∧
        ∀ records, batchAfter Engine.builtin (s.lapsing lapsed) history p expressions =
          .ok records → List.Forall₂ Record.WellShaped records expressions := by
  obtain ⟨s, hmake, hs⟩ := Tidy.exists_make hvalid
  refine ⟨s, hmake, ?_⟩
  intro lapsed history p expressions
  obtain ⟨outcome, run, hsound, hfollows, hrefused, hafter⟩ :=
    exists_batches Engine.builtin_renewable settings p
  rw [hafter _ (hs.lapsing lapsed)]
  by_cases hlong : settings.limits.batchSize < expressions.length
  · rw [hrefused expressions hlong]
    constructor
    · intro e
      constructor
      · rintro ⟨⟩
        exact ⟨hlong, rfl⟩
      · rintro ⟨-, rfl⟩
        rfl
    · intro records hrecords
      cases hrecords
  · obtain ⟨records, last, htrail⟩ :=
      Trail.exists_of_empty hsound verdict_builtin_empty .initial expressions
    have haccepted : run expressions = .ok records :=
      (hfollows _ _).mpr ⟨Nat.le_of_not_lt hlong, last, htrail⟩
    rw [haccepted]
    constructor
    · intro e
      constructor
      · intro hfailed
        cases hfailed
      · rintro ⟨htooLong, -⟩
        exact absurd htooLong hlong
    · rintro _ ⟨⟩
      exact htrail.wellShaped hsound

/-- Behind a batch and a request to stop, an assignment, a blank text, a quotient with a value
filled in and a text that is refused have their records. -/
theorem batchAfter_wellShaped_mixed :
    ∃ s : Service Builtin.State, make {} = .ok s ∧
      ∃ records, batchAfter Engine.builtin (s.lapsing fun n _ => n % 2 == 0)
          [.evaluate ["x=3", "x/3"] {}, .cancel] {} ["x=1", " ", "x/3", "x)"] = .ok records ∧
        List.Forall₂ Record.WellShaped records ["x=1", " ", "x/3", "x)"] := by
  obtain ⟨s, hmake, hbatch⟩ := @batchAfter_wellShaped {} rfl
  obtain ⟨hrefused, hrecords⟩ := hbatch (fun n _ => n % 2 == 0)
    [.evaluate ["x=3", "x/3"] {}, .cancel] {} ["x=1", " ", "x/3", "x)"]
  refine ⟨s, hmake, ?_⟩
  generalize batchAfter _ _ _ _ _ = r at hrefused hrecords
  cases r with
  | error e =>
    obtain ⟨hlong, -⟩ := (hrefused e).mp rfl
    exact absurd hlong (by decide)
  | ok records => exact ⟨records, rfl, hrecords records rfl⟩

/-- Records depend on the assignments before them, and on nothing else. -/
structure Forward (run : List Request → List String → Except Failure (List Record)) : Prop where
  /-- No assignment outlives its batch. -/
  history_eq : ∀ history history' expressions, run history expressions = run history' expressions
  /-- A record is the last one of the batch of the assignments before it and its expression. -/
  captured_eq : ∀ history history' expressions records, run history expressions = .ok records →
    ∀ (i : Nat) (hi : i < expressions.length), ∃ record others, records[i]? = some record ∧
      run history' (captured (expressions.take i) records ++ [expressions[i]]) =
        .ok (others ++ [record])
  /-- Later expressions do not matter. -/
  later_eq : ∀ history history' front rest rest' records records',
    run history (front ++ rest) = .ok records → run history' (front ++ rest') = .ok records' →
      records.take front.length = records'.take front.length
  /-- Earlier expressions do not matter where none is captured as an assignment. -/
  earlier_eq : ∀ history history' front mid mid' rest records records',
    run history (front ++ mid ++ rest) = .ok records →
    run history' (front ++ mid' ++ rest) = .ok records' →
    captured mid (records.drop front.length) = [] →
    captured mid' (records'.drop front.length) = [] →
      records.drop (front ++ mid).length = records'.drop (front ++ mid').length

/-- In the batches of a service, information flows forward, and through assignments only. -/
theorem batchAfter_forward {engine : Engine σ} (hengine : engine.Renewable)
    (hvalid : settings.check = .ok ()) :
    ∃ s : Service σ, make settings = .ok s ∧ ∀ (lapsed : Nat → Key → Bool) (p : Parameters),
      Forward (batchAfter engine (s.lapsing lapsed) · p ·) := by
  obtain ⟨s, hmake, hs⟩ := @Tidy.exists_make σ engine settings hvalid
  refine ⟨s, hmake, ?_⟩
  intro lapsed p
  obtain ⟨outcome, run, hsound, hfollows, -, hafter⟩ := exists_batches hengine settings p
  have hrun (history : List Request) (expressions : List String) :
      batchAfter engine (s.lapsing lapsed) history p expressions = run expressions :=
    hafter _ (hs.lapsing lapsed) history expressions
  constructor
  case history_eq =>
    intro history history' expressions
    rw [hrun, hrun]
  case captured_eq =>
    intro history history' expressions records h i hi
    rw [hrun] at h
    simp only [hrun]
    exact hfollows.captured_eq hsound h hi
  case later_eq =>
    intro history history' front rest rest' records records' h h'
    rw [hrun] at h h'
    exact hfollows.later_eq h h'
  case earlier_eq =>
    intro history history' front mid mid' rest records records' h h' hmid hmid'
    rw [hrun] at h h'
    exact hfollows.earlier_eq hsound h h' hmid hmid'

/-- A refused expression has the same record behind the assignment before it alone, even if the
letter had another value in an earlier batch, and behind other expressions that are refused. -/
theorem batchAfter_forward_refused :
    ∃ s : Service Builtin.State, make {} = .ok s ∧
      ∃ records records' others record,
        batchAfter Engine.builtin s [] {} ["a=2", " ", "a)"] = .ok records ∧
        batchAfter Engine.builtin s [] {} ["a=2", "b(", "", "a)"] = .ok records' ∧
        records[2]? = some record ∧ records.drop 2 = records'.drop 3 ∧
        batchAfter Engine.builtin s [.evaluate ["a=3"] {}] {} ["a=2", "a)"] =
          .ok (others ++ [record]) := by
  obtain ⟨s, hmake, hforward⟩ := @batchAfter_forward _ {} _ Engine.builtin_renewable rfl
  have hs : s.lapsing (fun _ _ => false) = s := by
    cases hmake
    rfl
  have hrecords : batchAfter Engine.builtin s [] {} ["a=2", " ", "a)"] =
      .ok [⟨"a=2", .assignment, []⟩, ⟨" ", .blank, []⟩,
        .rejected "a)" (.malformed "unexpected token after expression: )")] := by
    cases hmake
    decide +kernel
  have hrecords' : batchAfter Engine.builtin s [] {} ["a=2", "b(", "", "a)"] =
      .ok [⟨"a=2", .assignment, []⟩, .rejected "b(" (.forbidden "b"), ⟨"", .blank, []⟩,
        .rejected "a)" (.malformed "unexpected token after expression: )")] := by
    cases hmake
    decide +kernel
  have h := hforward (fun _ _ => false) {}
  rw [hs] at h
  obtain ⟨record, others, hrecord, hlast⟩ :=
    h.captured_eq [] [.evaluate ["a=3"] {}] _ _ hrecords 2 (by decide)
  have hdrop := h.earlier_eq [] [] ["a=2"] [" "] ["b(", ""] ["a)"] _ _ hrecords hrecords' rfl rfl
  exact ⟨s, hmake, _, _, others, record, hrecords, hrecords', hrecord, hdrop, hlast⟩

end Reckoner.Service
