import Reckoner.Proofs.Service.Invariants
import Reckoner.Proofs.Validation.Whitelist

/-!
# Only checked texts are computed

An engine computes on behalf of a lookup, which stores the result under its call; the unbounded
backend never gives it up. So the calls in the store tell what was computed. Whatever a service is
asked for, each of them has a text that validation has let through: assignments, blank texts and
refused ones leave nothing behind, and the classification computes the very text that was
validated.
-/

namespace Reckoner

/-- What validation has let through: a text in its normal form that passes the checks and is an
expression. -/
structure Validation.Checked (text : String) : Prop where
  /-- The text is its own normal form. -/
  normal : normalize text = text
  /-- Every word may stand where it does. -/
  grammar : checkGrammar text = .ok ()
  /-- Every word in front of a bracket is a function. -/
  semantics : checkSemantics text = .ok ()
  /-- The engine reads the text. -/
  parses : ∃ e, Grammar.parse text = .ok e

/-- Dropping blanks once more changes nothing. -/
theorem Validation.Checked.dropBlanks_eq {text : String} (h : Checked text) :
    String.ofList (Text.dropBlanks text.toList) = text := by
  have hblank : ∀ c ∈ text.toList, Text.isBlank c = false := by
    intro c hc
    rw [← h.normal] at hc
    exact isBlank_of_mem_normalize hc
  rw [Text.dropBlanks_eq_self hblank, String.ofList_toList]

namespace Service

variable {σ : Type} {engine : Engine σ}

/-! ## Stored calls -/

/-- Only calls on texts with a property are stored. -/
def Store.OnlyOn (P : String → Prop) (s : Store) : Prop :=
  ∀ entry ∈ s.entries, P entry.1.text

namespace Store.OnlyOn

variable {P : String → Prop} {s : Store} {key : Key}

theorem empty (settings : Settings.Store) : (Store.empty settings).OnlyOn P :=
  fun _ h => by cases h

/-- A result may be stored under a key with the property. -/
theorem put (h : s.OnlyOn P) (hkey : P key.text) (result : Evaluation) :
    (s.put key result).OnlyOn P := by
  intro entry hentry
  rcases List.mem_cons.mp hentry with rfl | hentry
  · exact hkey
  · exact h entry (List.mem_filter.mp hentry).1

/-- Whatever the backend stores, it stores it under the call. -/
theorem keep (h : s.OnlyOn P) (hkey : P key.text) (call : Call) : (s.keep key call).OnlyOn P := by
  unfold Store.keep
  split
  · exact h
  · unfold Store.insert
    split
    · exact h
    · split
      · exact h
      · exact h.put hkey _
    · split
      · exact h
      · exact h.put hkey _

end Store.OnlyOn

/-- A service stores calls on texts with a property only. -/
def StoresOnly (P : String → Prop) (s : Service σ) : Prop := s.store.OnlyOn P

variable {P : String → Prop}

/-- A call to the pool stores nothing. -/
theorem keeps_inPool {α : Type} (call : Pool σ → Except Failure α × Pool σ) :
    Keeps (StoresOnly P) (inPool call) fun _ => True := by
  intro s hs
  rw [run_inPool]
  exact ⟨hs, fun _ _ => trivial⟩

/-- A lookup stores what it computes under the call that it is for. -/
theorem keeps_lookup {key : Key} {compute : Task σ Call} (hkey : P key.text)
    (h : Keeps (StoresOnly P) compute fun _ => True) :
    Keeps (StoresOnly P) (lookup key compute) fun _ => True := by
  intro s hs
  refine ⟨?_, fun _ _ => trivial⟩
  cases hget : s.store.get? key with
  | some result =>
    rw [run_lookup_of_some hget]
    exact hs
  | none =>
    have hnext : s.store.next.OnlyOn P := hs
    obtain ⟨hs', -⟩ := h s hs
    cases hrun : compute.run.run s with
    | mk outcome s' =>
      rw [hrun] at hs'
      cases outcome with
      | ok call =>
        rw [run_lookup_of_ok hget hrun]
        exact hnext.keep hkey call
      | error e =>
        rw [run_lookup_of_error hget hrun]
        exact hs'

/-! ## Requests -/

open Validation (Checked)

/-- Validation computes nothing, whatever it says. -/
theorem keeps_validate (engine : Engine σ) (expression : String) :
    Keeps (StoresOnly P) (validate engine expression) fun _ => True := by
  unfold validate
  dsimp only
  split
  · exact .throw _
  · exact .throw _
  · exact (keeps_inPool _).bind fun _ _ => .pure trivial

/-- What validation gives is checked. -/
theorem checked_of_validate {s : Service Builtin.State} {expression text : String}
    (h : ((validate Engine.builtin expression).run.run s).1 = .ok text) : Checked text := by
  obtain ⟨-, rfl, hgrammar, hsemantics, hparse⟩ := Validation.validate_iff.mp h
  refine ⟨?_, hgrammar, hsemantics, hparse⟩
  rw [Validation.normalize, Validation.normalize, String.toList_ofList,
    Validation.normalizeChars_normalizeChars]

/-- The calls of a service over the built-in engine store calls on checked texts only. -/
theorem storesOnly_preserved : Preserved Engine.builtin Checked (StoresOnly Checked) where
  validate expression s hs :=
    ⟨(keeps_validate Engine.builtin expression s hs).1, fun _ => checked_of_validate⟩
  dropBlanks h := by rwa [h.dropBlanks_eq]
  evaluate h := keeps_lookup h (keeps_inPool _)
  calculate h _ := keeps_lookup h (keeps_inPool _)
  draw h _ _ _ := keeps_lookup h (keeps_inPool _)
  display _ := keeps_inPool _
  cancel h := h
  forget _ := fun _ hentry => nomatch hentry

namespace StoresOnly

variable {s : Service Builtin.State} {settings : Settings}

/-- A new service stores nothing. -/
theorem of_make {s : Service σ} (h : make settings = .ok s) : s.StoresOnly P := by
  obtain ⟨gate, -, rfl⟩ := exists_gate_of_make h
  exact Store.OnlyOn.empty settings.store

/-- Which results lapse does not matter. -/
theorem lapsing {s : Service σ} (h : s.StoresOnly P) (lapsed : Nat → Key → Bool) :
    (s.lapsing lapsed).StoresOnly P := h

end StoresOnly

/-- Whatever a new service is asked for, with any backend, each call in its store has a text that is
its own normal form, passes both checks and is an expression. -/
theorem session_stores_checked {settings : Settings} {s : Service Builtin.State}
    (hmake : make settings = .ok s) (lapsed : Nat → Key → Bool) (requests : List Request) :
    ∀ entry ∈ ((s.lapsing lapsed).session Engine.builtin requests).2.store.entries,
      Checked entry.1.text := by
  have hnew : (s.lapsing lapsed).StoresOnly Checked := (StoresOnly.of_make hmake).lapsing lapsed
  exact storesOnly_preserved.session hnew requests

/-- A batch with an assignment, a blank text and refused expressions, and a classification, leave
one call each in a store that never gives anything up. -/
theorem session_stores_checked_equation :
    ∃ s : Service Builtin.State, make { store := { backend := .unbounded } } = .ok s ∧
      ((s.lapsing fun _ _ => false).session Engine.builtin
        [.evaluate ["a=1/3", "a)", " ", "[a] = = x", "f(a)"] {}, .classify "a == 2"]
          ).2.store.entries.map Prod.fst = [.evaluate "a==2", .evaluate "((1/3))==x"] ∧
      Checked "a==2" ∧ Checked "((1/3))==x" := by
  obtain ⟨s, hmake, -⟩ := @Tidy.exists_make _ Engine.builtin
    { store := { backend := .unbounded } } rfl
  have h := session_stores_checked hmake (fun _ _ => false)
    [.evaluate ["a=1/3", "a)", " ", "[a] = = x", "f(a)"] {}, .classify "a == 2"]
  have hkeys : ((s.lapsing fun _ _ => false).session Engine.builtin
      [.evaluate ["a=1/3", "a)", " ", "[a] = = x", "f(a)"] {}, .classify "a == 2"]
        ).2.store.entries.map Prod.fst = [.evaluate "a==2", .evaluate "((1/3))==x"] := by
    cases hmake
    decide +kernel
  have hchecked (key : Key) (hkey : key ∈ [Key.evaluate "a==2", .evaluate "((1/3))==x"]) :
      Checked key.text := by
    rw [← hkeys] at hkey
    obtain ⟨entry, hentry, rfl⟩ := List.mem_map.mp hkey
    exact h entry hentry
  exact ⟨s, hmake, hkeys, hchecked _ (.head _), hchecked _ (.tail _ (.head _))⟩

end Service

end Reckoner
