import Mathlib.Data.List.Forall2
import Reckoner.Proofs.Memory.Brackets
import Reckoner.Proofs.Service.Batches
import Reckoner.Proofs.Service.Invariants

/-!
# Spellings

Two expressions with the same normal form are spelled with other blanks or with brackets of the
other shape. A batch is not told apart from one that is spelled in another way: behind each
expression both memories hold the same values up to brackets, both services are in the same state,
and both records say the same. Only a refused expression is repeated as it was spelled.
-/

namespace Reckoner

/-! ## Two spellings -/

/-- Two short enough expressions that are the same up to blanks and the shape of brackets. -/
structure Respelled (limit : Nat) (x y : String) : Prop where
  /-- The normal forms are the same. -/
  normalize_eq : Validation.normalize x = Validation.normalize y
  /-- The first is not too long. -/
  left_fits : x.length ≤ limit
  /-- The second is not too long. -/
  right_fits : y.length ≤ limit

/-- Two records say the same, but for the text of a refused expression. -/
structure Record.Alike (r r' : Record) : Prop where
  /-- The shape is the same. -/
  shape_eq : r.shape = r'.shape
  /-- The results are the same, or both repeat their own expression with the same problem. -/
  results : r.results = r'.results ∨
    ∃ cause, r = .rejected r.expression cause ∧ r' = .rejected r'.expression cause

/-- Two refusals for the same reason. -/
theorem Record.alike_rejected (x y : String) (cause : Failure) :
    (Record.rejected x cause).Alike (.rejected y cause) :=
  ⟨rfl, .inr ⟨cause, rfl, rfl⟩⟩

/-- A text is blank if nothing is left of its normal form. -/
theorem Text.allBlank_eq (s : List Char) :
    allBlank s = (Validation.normalizeChars s).isEmpty := by
  rw [Validation.normalizeChars, List.isEmpty_map, dropBlanks, allBlank]
  induction s with
  | nil => rfl
  | cons c rest ih =>
    rw [List.all_cons, List.filter_cons, ih]
    cases isBlank c <;> rfl

/-- Blank texts have the same normal form, and no others. -/
theorem Respelled.allBlank_eq {limit : Nat} {x y : String} (h : Respelled limit x y) :
    Text.allBlank x.toList = Text.allBlank y.toList := by
  rw [Text.allBlank_eq, Text.allBlank_eq, String.ofList_injective h.normalize_eq]

namespace Service

variable {σ : Type} {engine : Engine σ} {settings : Settings} {α β γ δ : Type}

/-! ## Tasks that end alike -/

/-- Two runs end in the same state, both with results that are related or with one failure. -/
inductive Ends (R : α → β → Prop) :
    Except Failure α × Service σ → Except Failure β × Service σ → Prop
  /-- Both runs have a result. -/
  | ok {a : α} {b : β} (s : Service σ) (h : R a b) : Ends R (.ok a, s) (.ok b, s)
  /-- Both runs fail. -/
  | error (e : Failure) (s : Service σ) : Ends R (.error e, s) (.error e, s)

/-- A run that ends like one with a result has a related one. -/
theorem Ends.exists_ok {R : α → β → Prop} {o : Except Failure α × Service σ}
    {o' : Except Failure β × Service σ} (h : Ends R o o') {a : α} (ha : o.1 = .ok a) :
    ∃ b, o'.1 = .ok b ∧ R a b := by
  cases h with
  | ok s h =>
    cases ha
    exact ⟨_, rfl, h⟩
  | error e s => cases ha

/-- From services with an invariant, two tasks end alike. -/
def Matched (I : Service σ → Prop) (R : α → β → Prop) (t : Task σ α) (t' : Task σ β) : Prop :=
  ∀ s, I s → Ends R (t.run.run s) (t'.run.run s)

/-- No invariant at all. -/
abbrev Anywhere (_ : Service σ) : Prop := True

namespace Matched

variable {I J : Service σ → Prop} {R : α → β → Prop} {Q : γ → δ → Prop} {t : Task σ α}
  {t' : Task σ β} {f : α → Task σ γ} {f' : β → Task σ δ}

theorem mono (h : Matched J R t t') (hIJ : ∀ s, I s → J s) : Matched I R t t' :=
  fun s hs => h s (hIJ s hs)

theorem refl (t : Task σ α) : Matched I Eq t t := by
  intro s _
  generalize t.run.run s = o
  obtain ⟨outcome, s'⟩ := o
  cases outcome with
  | ok a => exact .ok s' rfl
  | error e => exact .error e s'

protected theorem pure {a : α} {b : β} (h : R a b) : Matched I R (pure a) (pure b) :=
  fun s _ => .ok s h

protected theorem throw (e : Failure) : Matched I R (throw e) (throw e) :=
  fun s _ => .error e s

/-- One task after another; the first task leads to the services from which the others go on. -/
theorem bind (ht : Matched I R t t') (hJ : ∀ s, I s → J (t.run.run s).2)
    (hf : ∀ a b, R a b → Matched J Q (f a) (f' b)) : Matched I Q (t >>= f) (t' >>= f') := by
  intro s hs
  have hends := ht s hs
  have hnext := hJ s hs
  rw [ExceptT.run_bind, StateT.run_bind, ExceptT.run_bind, StateT.run_bind]
  generalize t.run.run s = o at hends hnext
  generalize t'.run.run s = o' at hends
  cases hends with
  | ok s' h => exact hf _ _ h s' hnext
  | error e s' => exact .error e s'

/-- One task after another, where the others go on from any service. -/
theorem bind_anywhere (ht : Matched I R t t')
    (hf : ∀ a b, R a b → Matched Anywhere Q (f a) (f' b)) : Matched I Q (t >>= f) (t' >>= f') :=
  ht.bind (J := Anywhere) (fun _ _ => trivial) hf

/-- The same task, and then tasks that end alike for each of its results. -/
theorem bind_same {t : Task σ α} {f : α → Task σ γ} {f' : α → Task σ δ}
    (hf : ∀ a, Matched Anywhere Q (f a) (f' a)) : Matched I Q (t >>= f) (t >>= f') := by
  refine (refl t).bind_anywhere ?_
  rintro a _ rfl
  exact hf a

/-- Two tasks that look at the service first. -/
theorem read {f : Service σ → Task σ γ} {f' : Service σ → Task σ δ}
    (h : ∀ s, I s → Matched (· = s) Q (f s) (f' s)) :
    Matched I Q (getThe (Service σ) >>= f) (getThe (Service σ) >>= f') :=
  fun s hs => h s hs s rfl

end Matched

/-! ## Single expressions -/

variable {limit : Nat} {x y : String} {memory memory' : Memory}

/-- Two records of expressions that are told apart by their text only. -/
structure SameRecord (x y : String) (r r' : Record) : Prop where
  /-- The first record is that of the first expression. -/
  left_eq : r.expression = x
  /-- The second record is that of the second expression. -/
  right_eq : r'.expression = y
  /-- The records say the same. -/
  alike : r.Alike r'

/-- Two expressions refused for one cause have the same record. -/
theorem sameRecord_rejected (x y : String) (cause : Failure) :
    SameRecord x y (.rejected x cause) (.rejected y cause) :=
  ⟨rfl, rfl, Record.alike_rejected x y cause⟩

/-- Validation looks at the normal form. -/
theorem validateOrRefuse_congr {u v : String}
    (h : Validation.normalize u = Validation.normalize v) :
    validateOrRefuse engine u = validateOrRefuse engine v := by
  unfold validateOrRefuse validate
  rw [h]

/-- Which words are unknown depends on the names in the memory. -/
theorem unboundSymbols_congr (h : memory.rounded = memory'.rounded) (text : String) :
    memory.unboundSymbols text = memory'.unboundSymbols text := by
  rw [← memory.unboundSymbols_rounded, h, memory'.unboundSymbols_rounded]

/-- Behind the validation only the expression itself is told apart. -/
theorem matched_evaluateSubstituted (engine : Engine σ)
    (hmemory : memory.rounded = memory'.rounded) {u v : String}
    (huv : Validation.normalize u = Validation.normalize v) (x y : String) (p : Parameters) :
    Matched Anywhere (SameRecord x y) (evaluateSubstituted engine memory x u p)
      (evaluateSubstituted engine memory' y v p) := by
  unfold evaluateSubstituted
  rw [validateOrRefuse_congr huv]
  refine .bind_same fun checked => ?_
  cases checked with
  | error e => exact .pure (sameRecord_rejected x y e)
  | ok text =>
    refine .read fun s _ => ?_
    refine .bind_same fun shape => ?_
    simp only [unboundSymbols_congr hmemory]
    split
    · exact .pure (sameRecord_rejected x y _)
    · exact .bind_same fun results => .pure ⟨rfl, rfl, rfl, .inl rfl⟩

/-- Both memories take in the same, but for the shape of brackets. -/
theorem apply_rounded_eq (h : Respelled limit x y) (hmemory : memory.rounded = memory'.rounded) :
    Prod.map Memory.Outcome.rounded Memory.rounded (memory.apply x) =
      Prod.map Memory.Outcome.rounded Memory.rounded (memory'.apply y) := by
  rw [← memory.apply_rounded, hmemory, h.normalize_eq, memory'.apply_rounded]

/-- The records of two spellings are the same, and the memories stay the same up to brackets. -/
theorem matched_evaluateOne (engine : Engine σ) (h : Respelled limit x y)
    (hmemory : memory.rounded = memory'.rounded) (p : Parameters) :
    Matched (fun s : Service σ => s.settings.limits.expressionLength = limit)
      (fun one one' => SameRecord x y one.1 one'.1 ∧ one.2.rounded = one'.2.rounded)
      (evaluateOne engine p memory x) (evaluateOne engine p memory' y) := by
  unfold evaluateOne
  refine .read fun s hs => ?_
  dsimp only
  rw [h.allBlank_eq, hs, if_neg (Nat.not_lt_of_le h.left_fits),
    if_neg (Nat.not_lt_of_le h.right_fits)]
  split
  · exact .pure ⟨⟨rfl, rfl, rfl, .inl rfl⟩, hmemory⟩
  have happly := apply_rounded_eq h hmemory
  generalize memory.apply x = one at happly
  generalize memory'.apply y = one' at happly
  obtain ⟨outcome, next⟩ := one
  obtain ⟨outcome', next'⟩ := one'
  obtain ⟨houtcome, hnext⟩ := Prod.mk.inj happly
  match outcome, outcome', houtcome with
  | .assigned _ _, .assigned _ _, _ =>
    -- An assignment computes nothing.
    exact .pure ⟨⟨rfl, rfl, rfl, .inl rfl⟩, hnext⟩
  | .substituted u, .substituted v, huv =>
    have hrounded : Text.rounded u = Text.rounded v := Memory.Outcome.substituted.inj huv
    have hnormal := Text.normalize_eq_of_rounded hrounded
    have hrecord : Matched (· = s) (SameRecord x y) _ _ :=
      (matched_evaluateSubstituted engine hnext hnormal x y p).mono fun _ _ => trivial
    exact hrecord.bind_anywhere fun _ _ hr => .pure ⟨hr, hnext⟩

/-! ## Batches -/

/-- The records of two batches that are told apart by the texts of their expressions only. -/
structure SameRecords (xs ys : List String) (records records' : List Record) : Prop where
  /-- The first records are those of the first expressions. -/
  left_eq : records.map Record.expression = xs
  /-- The second records are those of the second expressions. -/
  right_eq : records'.map Record.expression = ys
  /-- The records say the same. -/
  alike : List.Forall₂ Record.Alike records records'

variable {xs ys : List String}

/-- Respelled expressions are evaluated to the same records. -/
theorem matched_evaluateAll (hengine : engine.Renewable)
    (h : List.Forall₂ (Respelled settings.limits.expressionLength) xs ys)
    (hmemory : memory.rounded = memory'.rounded) (p : Parameters) :
    Matched (Tidy engine settings) (SameRecords xs ys) (evaluateAll engine p memory xs)
      (evaluateAll engine p memory' ys) := by
  induction h generalizing memory memory' with
  | nil => exact .pure ⟨rfl, rfl, .nil⟩
  | @cons x y rest rest' hxy _ ih =>
    have hone := (matched_evaluateOne engine hxy hmemory p).mono
      fun s (hs : s.Tidy engine settings) => congrArg Settings.Limits.expressionLength hs.limits
    refine hone.bind (fun s hs => ((steady_evaluateOne hengine p memory x).keeps s hs).1) ?_
    rintro ⟨r, next⟩ ⟨r', next'⟩ ⟨hr, hnext⟩
    refine (ih hnext).bind_anywhere fun records records' hrecords => ?_
    exact .pure ⟨congrArg₂ List.cons hr.left_eq hrecords.left_eq,
      congrArg₂ List.cons hr.right_eq hrecords.right_eq, .cons hr.alike hrecords.alike⟩

/-- Batches of the same length are both too long, or have records one by one. -/
theorem matched_evaluateBatch (hengine : engine.Renewable)
    (h : List.Forall₂ (Respelled settings.limits.expressionLength) xs ys) (p : Parameters) :
    Matched (Tidy engine settings) (SameRecords xs ys) (evaluateBatch engine p xs)
      (evaluateBatch engine p ys) := by
  unfold evaluateBatch
  refine .read fun s hs => ?_
  dsimp only
  rw [h.length_eq]
  split
  · exact .throw _
  · refine (matched_evaluateAll hengine h rfl p).mono ?_
    rintro _ rfl
    exact hs

/-- After any history, a batch and one that is spelled with other blanks and brackets are both
refused, since they are too long, or have records that are the same one by one, but for the text of
refused expressions. -/
theorem batchAfter_respelled {s : Service Builtin.State} (hmake : make settings = .ok s)
    (h : List.Forall₂ (Respelled settings.limits.expressionLength) xs ys)
    (lapsed : Nat → Key → Bool) (history history' : List Request) (p : Parameters) :
    (settings.limits.batchSize < xs.length ∧
      ∃ e, batchAfter Engine.builtin (s.lapsing lapsed) history p xs = .error e ∧
        batchAfter Engine.builtin (s.lapsing lapsed) history' p ys = .error e) ∨
    ∃ records records', batchAfter Engine.builtin (s.lapsing lapsed) history p xs = .ok records ∧
      batchAfter Engine.builtin (s.lapsing lapsed) history' p ys = .ok records' ∧
      records.map Record.expression = xs ∧ records'.map Record.expression = ys ∧
      List.Forall₂ Record.Alike records records' := by
  have hengine := Engine.builtin_renewable
  have hs : (s.lapsing lapsed).Tidy Engine.builtin settings := (Tidy.of_make hmake).lapsing lapsed
  obtain ⟨outcome, run, hsound, hfollows, hrefused, hafter⟩ := exists_batches hengine settings p
  rw [hafter _ hs history xs, hafter _ hs history' ys]
  rcases Nat.lt_or_ge settings.limits.batchSize xs.length with hlong | hfits
  · refine .inl ⟨hlong, _, hrefused xs hlong, ?_⟩
    rw [h.length_eq] at hlong ⊢
    exact hrefused ys hlong
  · obtain ⟨records, last, htrail⟩ :=
      Trail.exists_of_empty hsound verdict_builtin_empty .initial xs
    have hxs : run xs = .ok records := (hfollows _ _).mpr ⟨hfits, last, htrail⟩
    have hends := matched_evaluateBatch hengine h p _ (hs.session hengine history)
    obtain ⟨records', hys, hsame⟩ := hends.exists_ok ((hafter _ hs history xs).trans hxs)
    have hys : run ys = .ok records' := (hafter _ hs history ys).symm.trans hys
    exact .inr ⟨records, records', hxs, hys, hsame.left_eq, hsame.right_eq, hsame.alike⟩

/-- A value with an open bracket, a call that is refused, an equation that closes the bracket of the
value, and a blank text; the second batch is asked for behind the first. -/
theorem batchAfter_respelled_open :
    ∃ s : Service Builtin.State, make {} = .ok s ∧
      List.Forall₂ (Respelled ({} : Settings).limits.expressionLength)
        ["a=[1/2", "f[a]", "a]==x", " "] [" a = ( 1/2", "f (a )", "a ) == x", ""] ∧
      ∃ records records',
        batchAfter Engine.builtin (s.lapsing fun n _ => n % 2 == 0) [] {}
          ["a=[1/2", "f[a]", "a]==x", " "] = .ok records ∧
        batchAfter Engine.builtin (s.lapsing fun n _ => n % 2 == 0)
          [.evaluate ["a=[1/2", "f[a]", "a]==x", " "] {}] {}
          [" a = ( 1/2", "f (a )", "a ) == x", ""] = .ok records' ∧
        records.map Record.expression = ["a=[1/2", "f[a]", "a]==x", " "] ∧
        records'.map Record.expression = [" a = ( 1/2", "f (a )", "a ) == x", ""] ∧
        List.Forall₂ Record.Alike records records' := by
  obtain ⟨s, hmake, -⟩ := @Tidy.exists_make _ Engine.builtin {} rfl
  have h : List.Forall₂ (Respelled ({} : Settings).limits.expressionLength)
      ["a=[1/2", "f[a]", "a]==x", " "] [" a = ( 1/2", "f (a )", "a ) == x", ""] := by
    refine .cons ⟨?_, ?_, ?_⟩ (.cons ⟨?_, ?_, ?_⟩ (.cons ⟨?_, ?_, ?_⟩ (.cons ⟨?_, ?_, ?_⟩ .nil)))
    all_goals decide +kernel
  refine ⟨s, hmake, h, ?_⟩
  rcases batchAfter_respelled hmake h (fun n _ => n % 2 == 0) []
    [.evaluate ["a=[1/2", "f[a]", "a]==x", " "] {}] {} with ⟨hlong, -⟩ | hrecords
  · exact absurd hlong (by decide)
  · exact hrecords

end Service

end Reckoner
