import Reckoner.Engine.Basic
import Reckoner.Proofs.Engine.Approximation

/-!
# Calls that nobody asked to stop

A call reports that it was stopped only at a checkpoint, where it looks at the request. Arithmetic,
bounds and drawings fail for reasons of their own. So a call of the built-in engine that nobody has
asked to stop does not say that it was stopped, whatever it is called with.
-/

namespace Reckoner

variable {α β : Type}

/-! ## Outcomes other than a stop -/

namespace EngineError

/-- A result is no stop. -/
theorem ok_ne_stopped (a : α) : (Except.ok a : Except EngineError α) ≠ .error .stopped := by
  rintro ⟨⟩

/-- Neither is another error. -/
theorem error_ne_stopped {e : EngineError} (h : e ≠ .stopped) :
    (Except.error e : Except EngineError α) ≠ .error .stopped := by
  rintro ⟨⟩
  exact h rfl

/-- Mapping a result brings no stop. -/
theorem map_ne_stopped {r : Except EngineError α} (h : r ≠ .error .stopped)
    (g : α → β) : r.map g ≠ .error .stopped := by
  cases r with
  | ok a => exact ok_ne_stopped (g a)
  | error e => exact error_ne_stopped fun he => h (congrArg _ he)

/-- Two computations that do not stop do not stop one after the other. -/
theorem bind_ne_stopped {r : Except EngineError α} {k : α → Except EngineError β}
    (h : r ≠ .error .stopped) (hk : ∀ a, k a ≠ .error .stopped) : r >>= k ≠ .error .stopped := by
  cases r with
  | ok a => exact hk a
  | error e => exact error_ne_stopped fun he => h (congrArg _ he)

theorem divisionByZero_ne_stopped : divisionByZero ≠ stopped := by
  rintro ⟨⟩

theorem notConformable_ne_stopped (m n : Nat) : notConformable m n ≠ stopped := by
  rintro ⟨⟩

end EngineError

open EngineError

namespace Run

variable {x : Run α} {k : α → Run β}

/-- However the run ends, it does not report that it was stopped. -/
def Unstopped (x : Run α) : Prop := ∀ warnings, (x.run.run warnings).1 ≠ .error .stopped

/-- A run that gives a result is not stopped. -/
theorem Gives.unstopped {a : α} (h : Gives x a) : Unstopped x := by
  intro warnings
  rw [h warnings]
  exact ok_ne_stopped a

namespace Unstopped

protected theorem pure (a : α) : Unstopped (pure a) := (Gives.pure a).unstopped

protected theorem throw {e : EngineError} (h : e ≠ .stopped) : Unstopped (throw e : Run α) := by
  rintro warnings ⟨⟩
  exact h rfl

/-- A result that is no stop does not stop the run. -/
theorem ofExcept {r : Except EngineError α} (h : r ≠ .error .stopped) : Unstopped (ofExcept r) := by
  cases r with
  | ok a => exact .pure a
  | error e => exact .throw fun he => h (congrArg _ he)

/-- Runs that are not stopped are not stopped one after the other. -/
theorem bind (hx : Unstopped x) (hk : ∀ a, Unstopped (k a)) : Unstopped (x >>= k) := by
  intro warnings
  rw [ExceptT.run_bind, StateT.run_bind]
  have hx := hx warnings
  generalize x.run.run warnings = r at hx ⊢
  obtain ⟨e | a, later⟩ := r
  · exact fun he => hx (by cases he; rfl)
  · exact hk a later

/-- Where nobody has asked to stop, a checkpoint is passed. -/
theorem checkpoint (h : Unstopped x) : Unstopped (do Run.checkpoint false; x) :=
  Gives.checkpoint.unstopped.bind fun _ => h

end Unstopped

end Run

/-! ## Simplification -/

namespace Expr

open Run

variable {f : Operation} {a b : Expr} {as bs : List Expr}

/-- Exact arithmetic fails for a division by zero only. -/
theorem foldExact_ne_stopped (p q : Fraction) : foldExact f p q ≠ .error .stopped := by
  cases f with
  | add | subtract | multiply => exact ok_ne_stopped _
  | divide =>
    simp only [foldExact]
    split
    · exact error_ne_stopped divisionByZero_ne_stopped
    · exact ok_ne_stopped _
  | power =>
    simp only [foldExact]
    split
    · exact error_ne_stopped divisionByZero_ne_stopped
    · split
      · exact ok_ne_stopped _
      · exact ok_ne_stopped _

/-- A fold of two numbers does not stop. -/
theorem foldScalar_ne_stopped : foldScalar f a b ≠ .error .stopped := by
  unfold foldScalar
  split
  · exact map_ne_stopped (foldExact_ne_stopped _ _) _
  · split
    · split
      · split
        · exact error_ne_stopped divisionByZero_ne_stopped
        · exact ok_ne_stopped _
      · exact ok_ne_stopped _
    · exact ok_ne_stopped _

mutual

/-- A fold of a left operand that is no list does not stop. -/
theorem foldRight_ne_stopped (b : Expr) : foldRight f a b ≠ .error .stopped := by
  cases b with
  | list bs =>
    rw [foldRight]
    exact map_ne_stopped (foldRightAll_ne_stopped bs) list
  | _ =>
    rw [NoList.foldRight_eq (fun _ h => by cases h)]
    exact foldScalar_ne_stopped

/-- A fold with every item on the right does not stop. -/
theorem foldRightAll_ne_stopped (bs : List Expr) : foldRightAll f a bs ≠ .error .stopped := by
  cases bs with
  | nil =>
    rw [foldRightAll]
    exact ok_ne_stopped []
  | cons b bs =>
    rw [foldRightAll]
    refine bind_ne_stopped (foldRight_ne_stopped b) fun c => ?_
    exact bind_ne_stopped (foldRightAll_ne_stopped bs) fun cs => ok_ne_stopped _

end

mutual

/-- Arithmetic fails for a division by zero, or for lists of different lengths. -/
theorem foldBinary_ne_stopped (a b : Expr) : foldBinary f a b ≠ .error .stopped := by
  cases a with
  | list as =>
    by_cases hlist : ∃ bs, b = .list bs
    · obtain ⟨bs, rfl⟩ := hlist
      rw [foldBinary]
      split
      · exact map_ne_stopped (foldPairs_ne_stopped as bs) list
      · exact error_ne_stopped (notConformable_ne_stopped _ _)
    · rw [foldBinary]
      · exact map_ne_stopped (foldLeftAll_ne_stopped as b) list
      · exact fun bs hbs => hlist ⟨bs, hbs⟩
  | _ =>
    rw [NoList.foldBinary_eq (fun _ h => by cases h)]
    exact foldRight_ne_stopped b

/-- A fold of two lists pair by pair does not stop. -/
theorem foldPairs_ne_stopped (as bs : List Expr) : foldPairs f as bs ≠ .error .stopped := by
  cases as with
  | nil => exact ok_ne_stopped []
  | cons a as =>
    cases bs with
    | nil => exact ok_ne_stopped []
    | cons b bs =>
      rw [foldPairs]
      refine bind_ne_stopped (foldBinary_ne_stopped a b) fun c => ?_
      exact bind_ne_stopped (foldPairs_ne_stopped as bs) fun cs => ok_ne_stopped _

/-- A fold with every item on the left does not stop. -/
theorem foldLeftAll_ne_stopped (as : List Expr) (b : Expr) :
    foldLeftAll f as b ≠ .error .stopped := by
  cases as with
  | nil =>
    rw [foldLeftAll]
    exact ok_ne_stopped []
  | cons a as =>
    rw [foldLeftAll]
    refine bind_ne_stopped (foldBinary_ne_stopped a b) fun c => ?_
    exact bind_ne_stopped (foldLeftAll_ne_stopped as b) fun cs => ok_ne_stopped _

end

mutual

/-- Simplification is not stopped without a request. -/
theorem unstopped_simplify : ∀ e : Expr, Unstopped (simplify false e)
  | .neg a => by
    rw [simplify]
    exact ((unstopped_simplify a).bind fun _ => .pure _).checkpoint
  | .binary f a b => by
    rw [simplify]
    refine ((unstopped_simplify a).bind fun a' => ?_).checkpoint
    exact (unstopped_simplify b).bind fun b' => .ofExcept (foldBinary_ne_stopped a' b')
  | .compare f a b => by
    rw [simplify]
    refine ((unstopped_simplify a).bind fun a' => ?_).checkpoint
    exact (unstopped_simplify b).bind fun b' => .pure _
  | .call name as => by
    rw [simplify]
    refine ((unstopped_simplifyAll as).bind fun as' => ?_).checkpoint
    obtain ⟨_, hcall, -⟩ := exists_gives_foldCall name as'
    exact hcall.unstopped
  | .list as => by
    rw [simplify]
    exact ((unstopped_simplifyAll as).bind fun _ => .pure _).checkpoint
  | .exact q => (Unstopped.pure (Expr.exact q)).checkpoint
  | .real x => (Unstopped.pure (Expr.real x)).checkpoint
  | .symbol name => (Unstopped.pure (Expr.symbol name)).checkpoint
  | .boolean t => (Unstopped.pure (Expr.boolean t)).checkpoint

/-- The simplification of a list is not stopped without a request. -/
theorem unstopped_simplifyAll : ∀ as : List Expr, Unstopped (simplifyAll false as)
  | [] => .pure []
  | a :: as => by
    rw [simplifyAll]
    refine (unstopped_simplify a).bind fun a' => ?_
    exact (unstopped_simplifyAll as).bind fun _ => .pure _

end

/-! ## Approximation -/

/-- An approximate number is no stop. -/
theorem unstopped_approximated (x : Float) : Unstopped (approximated x) :=
  (gives_approximated x).unstopped

mutual

/-- Approximation is not stopped without a request. -/
theorem unstopped_numericize : ∀ e : Expr, Unstopped (numericize false e)
  | .neg a => by
    rw [numericize]
    refine Unstopped.checkpoint ?_
    split
    · exact unstopped_approximated _
    · exact (unstopped_numericize a).bind fun _ => .pure _
  | .binary f a b => by
    rw [numericize]
    refine Unstopped.checkpoint ?_
    split
    · exact unstopped_approximated _
    · refine (unstopped_numericize a).bind fun a' => ?_
      exact (unstopped_numericize b).bind fun _ => .pure _
  | .compare f a b => by
    rw [numericize]
    refine ((unstopped_numericize a).bind fun a' => ?_).checkpoint
    exact (unstopped_numericize b).bind fun _ => .pure _
  | .call name as => by
    rw [numericize]
    refine Unstopped.checkpoint ?_
    split
    · exact unstopped_approximated _
    · exact (unstopped_numericizeAll as).bind fun _ => .pure _
  | .list as => by
    rw [numericize]
    exact ((unstopped_numericizeAll as).bind fun _ => .pure _).checkpoint
  | .boolean t => (Unstopped.pure (Expr.boolean t)).checkpoint
  | .exact q => (unstopped_approximated q.toFloat).checkpoint
  | .real x => (unstopped_approximated x).checkpoint
  | .symbol name => by
    rw [numericize]
    refine Unstopped.checkpoint ?_
    split
    · exact unstopped_approximated _
    · exact .pure _

/-- The approximation of a list is not stopped without a request. -/
theorem unstopped_numericizeAll : ∀ as : List Expr, Unstopped (numericizeAll false as)
  | [] => .pure []
  | a :: as => by
    rw [numericizeAll]
    refine (unstopped_numericize a).bind fun a' => ?_
    exact (unstopped_numericizeAll as).bind fun _ => .pure _

end

end Expr

/-! ## The built-in engine -/

namespace Builtin

open Run

/-- Reading and simplifying is not stopped without a request. -/
theorem unstopped_simplified (text : String) : Unstopped (simplified false text) := by
  refine Unstopped.bind (.ofExcept ?_) Expr.unstopped_simplify
  unfold parse
  split
  · exact ok_ne_stopped _
  · exact error_ne_stopped (by rintro ⟨⟩)

/-- An evaluation is not stopped without a request. -/
theorem unstopped_evaluate (text : String) : Unstopped (evaluate text false) :=
  (unstopped_simplified text).bind fun _ => .pure _

/-- A calculation is not stopped without a request. -/
theorem unstopped_calculate (text : String) (places : Nat) :
    Unstopped (calculate text places false) := by
  refine (unstopped_simplified text).bind fun e => ?_
  exact (Expr.unstopped_numericize e).bind fun _ => .pure _

/-- The bound of a graph is read without a stop. -/
theorem unstopped_boundValue (text : String) : Unstopped (boundValue false text) := by
  refine (unstopped_simplified text).bind fun e => ?_
  split
  · split
    · exact .pure _
    · exact .throw (by rintro ⟨⟩)
  · exact .throw (by rintro ⟨⟩)

/-- A graph is drawn without a stop. -/
theorem unstopped_draw (text axis origin bound : String) :
    Unstopped (draw text axis origin bound false) := by
  unfold draw
  refine (unstopped_boundValue origin).bind fun start => ?_
  refine (unstopped_boundValue bound).bind fun finish => ?_
  split
  · exact .throw (by rintro ⟨⟩)
  refine (unstopped_simplified text).bind fun e => ?_
  dsimp only
  split
  · exact .throw (by rintro ⟨⟩)
  split
  · exact .throw (by rintro ⟨⟩)
  refine Unstopped.checkpoint ?_
  split
  · exact .throw (by rintro ⟨⟩)
  split
  · have hskipped (message : String) : Gives (modify (· ++ [message])) () := fun _ => rfl
    exact (hskipped _).unstopped.bind fun _ => .pure _
  · exact .pure _

/-- What a new engine computes without being stopped, it computes without being stopped when the
result takes the warnings along. -/
theorem State.finish_ne_stopped {r : Bool → Run String} (h : Unstopped (r false))
    (warnings : List String) : (State.finish ⟨false, warnings⟩ r).1 ≠ .error .stopped := by
  have h : ((r false).run warnings).1 ≠ .error .stopped := h warnings
  unfold State.finish
  dsimp only
  generalize (r false).run warnings = outcome at h ⊢
  obtain ⟨e | text, later⟩ := outcome
  · exact fun he => h (by cases he; rfl)
  · exact ok_ne_stopped _

end Builtin

end Reckoner
