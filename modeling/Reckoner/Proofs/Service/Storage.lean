import Mathlib.Data.Finset.Card
import Reckoner.Service.Store

/-!
# What a store answers

A store answers from the trace of what was stored since it was cleared last: the unbounded backend
with the first result of a call, the expiring one with the latest, as long as nothing lapses, and
the disabled one with nothing. What is computed without a result to answer with is stored, unless
the computation fails or is stopped. Results of other calls make no difference.
-/

namespace Reckoner.Service.Store

/-! ## Queries -/

/-- What a store can be asked for. -/
inductive Query where
  /-- The result kept for a call. -/
  | get (key : Key)
  /-- The number of results kept. -/
  | size
  /-- To store a result. -/
  | insert (key : Key) (result : Evaluation)
  /-- The result of a call, or else that of a computation with the given outcome. -/
  | compute (key : Key) (outcome : Except Failure Call)
  /-- To forget all results. -/
  | clear

/-- The query is about a call, or about all of them. -/
def Query.concerns (key : Key) : Query → Bool
  | get other | insert other _ | compute other _ => other == key
  | size => false
  | clear => true

/-- What comes back. -/
inductive Reply where
  /-- The result, if there is one. -/
  | result (found : Option Evaluation)
  /-- The number of results. -/
  | size (n : Nat)
  /-- The outcome, and how often the computation ran. -/
  | outcome (found : Except Failure Lookup) (runs : Nat)
  /-- Nothing. -/
  | done

/-- A computation with the given outcome that counts how often it runs. -/
def counted (outcome : Except Failure Call) : ExceptT Failure (StateM Nat) Call := do
  modifyThe Nat (· + 1)
  match outcome with
  | .ok call => return call
  | .error e => throw e

/-- Reply to a query. A computation that fails leaves the store as it was. -/
def serve (s : Store) : Query → Reply × Store
  | .get key => (.result (s.get? key), s)
  | .size => (.size s.size, s)
  | .insert key result => (.done, s.insert key result)
  | .compute key outcome =>
    match (s.getOrCompute key (counted outcome)).run.run 0 with
    | (.ok (found, s), runs) => (.outcome (.ok found) runs, s)
    | (.error e, runs) => (.outcome (.error e) runs, s)
  | .clear => (.done, s.clear)

/-- Reply to queries one after another. -/
def session (s : Store) : List Query → List Reply × Store
  | [] => ([], s)
  | query :: rest =>
    let (reply, s) := s.serve query
    let (replies, s) := s.session rest
    (reply :: replies, s)

/-! ## Traces -/

/-- The results that were stored since all were forgotten, in order. -/
abbrev Trace := List (Key × Evaluation)

namespace Trace

/-- The result that a backend keeps for a call. -/
def kept? (trace : Trace) : Backend → Key → Option Evaluation
  | .unbounded, key => trace.lookup key
  | .expiring, key => trace.reverse.lookup key
  | .disabled, _ => none

/-- The number of results that a backend keeps. -/
def size (trace : Trace) : Backend → Nat
  | .unbounded | .expiring => (trace.map Prod.fst).toFinset.card
  | .disabled => 0

/-- The reply to a query behind a trace. -/
def reply (trace : Trace) (backend : Backend) : Query → Reply
  | .get key => .result (trace.kept? backend key)
  | .size => .size (trace.size backend)
  | .insert .. | .clear => .done
  | .compute key outcome =>
    match trace.kept? backend key with
    | some result => .outcome (.ok ⟨result, true⟩) 0
    | none => .outcome (outcome.map fun call => ⟨call.result, false⟩) 1

/-- The trace behind a query. What is computed is stored if there was no result to answer with, and
the computation was not stopped. -/
def next (trace : Trace) (backend : Backend) : Query → Trace
  | .insert key result => trace ++ [(key, result)]
  | .compute key (.ok call) =>
    if (trace.kept? backend key).isNone && !call.stopped then trace ++ [(key, call.result)]
    else trace
  | .clear => []
  | .get _ | .size | .compute _ (.error _) => trace

/-- The replies to queries one after another. -/
def replies (trace : Trace) (backend : Backend) : List Query → List Reply
  | [] => []
  | query :: rest => trace.reply backend query :: (trace.next backend query).replies backend rest

/-- The trace behind queries. -/
def after (trace : Trace) (backend : Backend) (queries : List Query) : Trace :=
  queries.foldl (fun trace query => trace.next backend query) trace

variable {trace trace' : Trace} {backend : Backend} {key other : Key} {result : Evaluation}

/-- A trace of one result has it under its key only. -/
theorem lookup_singleton :
    ([(key, result)] : Trace).lookup other = if other = key then some result else none := by
  rw [List.lookup_cons]
  by_cases h : other = key
  · rw [if_pos h, beq_iff_eq.mpr h]
  · rw [if_neg h, beq_eq_false_iff_ne.mpr h]
    rfl

/-- The unbounded backend keeps what is stored for a call unless it had a result before. -/
theorem kept?_unbounded_append :
    kept? (trace ++ [(key, result)]) .unbounded other =
      (trace.kept? .unbounded other).or (if other = key then some result else none) := by
  rw [kept?, List.lookup_append, lookup_singleton]
  rfl

/-- The expiring backend keeps what is stored for a call, whatever it had before. -/
theorem kept?_expiring_append :
    kept? (trace ++ [(key, result)]) .expiring other =
      if other = key then some result else trace.kept? .expiring other := by
  change (trace ++ [(key, result)]).reverse.lookup other = _
  rw [List.reverse_append, List.reverse_singleton, List.lookup_append, lookup_singleton]
  by_cases h : other = key
  · rw [if_pos h, if_pos h, Option.some_or]
  · rw [if_neg h, if_neg h, Option.none_or]
    rfl

/-- What is stored for a call makes no difference to another one. -/
theorem kept?_append_of_ne (h : other ≠ key) :
    kept? (trace ++ [(key, result)]) backend other = trace.kept? backend other := by
  cases backend with
  | unbounded => rw [kept?_unbounded_append, if_neg h, Option.or_none]
  | expiring => rw [kept?_expiring_append, if_neg h]
  | disabled => rfl

/-- A call has a result exactly if one was stored, unless nothing is kept. -/
theorem isSome_kept?_iff (h : backend ≠ .disabled) :
    (trace.kept? backend key).isSome = true ↔ key ∈ trace.map Prod.fst := by
  have hlookup (trace : Trace) : (trace.lookup key).isSome = true ↔ key ∈ trace.map Prod.fst := by
    simp only [List.lookup_isSome_iff, List.mem_map, beq_iff_eq, @eq_comm _ key]
  cases backend with
  | unbounded => exact hlookup trace
  | expiring =>
    have hreverse := hlookup trace.reverse
    rwa [List.map_reverse, List.mem_reverse] at hreverse
  | disabled => exact absurd rfl h

/-- What is kept depends on what was kept before. -/
theorem kept?_append_congr (h : trace.kept? backend key = trace'.kept? backend key) :
    kept? (trace ++ [(other, result)]) backend key =
      kept? (trace' ++ [(other, result)]) backend key := by
  cases backend with
  | unbounded => rw [kept?_unbounded_append, kept?_unbounded_append, h]
  | expiring => rw [kept?_expiring_append, kept?_expiring_append, h]
  | disabled => rfl

/-- A query about other calls makes no difference to a call. -/
theorem kept?_next_of_not_concerns {query : Query} (h : query.concerns key = false) :
    (trace.next backend query).kept? backend key = trace.kept? backend key := by
  cases query with
  | get | size => rfl
  | insert other result => exact kept?_append_of_ne (Ne.symm (beq_eq_false_iff_ne.mp h))
  | compute other outcome =>
    cases outcome with
    | error e => rfl
    | ok call =>
      rw [next]
      split
      · exact kept?_append_of_ne (Ne.symm (beq_eq_false_iff_ne.mp h))
      · rfl
  | clear => cases h

/-- A query about a call depends on what is kept for that call. -/
theorem kept?_next_congr {query : Query} (hquery : query.concerns key = true)
    (h : trace.kept? backend key = trace'.kept? backend key) :
    (trace.next backend query).kept? backend key =
      (trace'.next backend query).kept? backend key := by
  cases query with
  | get | size => exact h
  | insert other result => exact kept?_append_congr h
  | compute other outcome =>
    obtain rfl : other = key := beq_iff_eq.mp hquery
    cases outcome with
    | error e => exact h
    | ok call =>
      rw [next, next, h]
      split
      · exact kept?_append_congr h
      · exact h
  | clear => rfl

/-- Queries about other calls can be left out. -/
theorem kept?_after_filter (queries : List Query)
    (h : trace.kept? backend key = trace'.kept? backend key) :
    (trace.after backend queries).kept? backend key =
      (trace'.after backend (queries.filter (·.concerns key))).kept? backend key := by
  induction queries generalizing trace trace' with
  | nil => exact h
  | cons query rest ih =>
    cases hquery : query.concerns key with
    | true =>
      rw [List.filter_cons_of_pos hquery]
      exact ih (kept?_next_congr hquery h)
    | false =>
      rw [List.filter_cons_of_neg (by simp [hquery])]
      exact ih ((kept?_next_of_not_concerns hquery).trans h)

end Trace

/-! ## Stores and their traces -/

/-- A store that has the results of a trace which its backend keeps. -/
structure Reflects (s : Store) (trace : Trace) : Prop where
  /-- Nothing lapses. -/
  lasting : ∀ n key, s.lapsed n key = false
  /-- Results are kept for some time. -/
  timed : s.settings.backend = .expiring → s.settings.lifetime ≠ 0
  /-- No call has two results. -/
  nodup : (s.entries.map Prod.fst).Nodup
  /-- Calls have the results that are kept. -/
  lookup_eq : ∀ key, s.entries.lookup key = trace.kept? s.settings.backend key

variable {s : Store} {trace : Trace} {key other : Key} {result : Evaluation}

/-- Without one key the others are found as before. -/
theorem lookup_filter_ne {entries : List (Key × Evaluation)} (h : other ≠ key) :
    (entries.filter fun entry => entry.1 != key).lookup other = entries.lookup other := by
  induction entries with
  | nil => rfl
  | cons entry rest ih =>
    obtain ⟨name, value⟩ := entry
    rw [List.lookup_cons]
    by_cases hname : name = key
    · subst hname
      rw [List.filter_cons_of_neg (by simp), ih, beq_eq_false_iff_ne.mpr h]
    · rw [List.filter_cons_of_pos (by simpa using hname), List.lookup_cons, ih]

/-- A result that is kept is that of its call. -/
theorem lookup_put :
    (s.put key result).entries.lookup other =
      if other = key then some result else s.entries.lookup other := by
  rw [put, List.lookup_cons]
  by_cases h : other = key
  · rw [if_pos h, beq_iff_eq.mpr h]
  · rw [if_neg h, beq_eq_false_iff_ne.mpr h]
    exact lookup_filter_ne h

/-- A stored result takes the place of an earlier one for the key. -/
theorem nodup_put (h : (s.entries.map Prod.fst).Nodup) :
    ((s.put key result).entries.map Prod.fst).Nodup := by
  rw [put, List.map_cons, List.nodup_cons]
  constructor
  · intro hmem
    obtain ⟨entry, hentry, hkey⟩ := List.mem_map.mp hmem
    have hne := (List.mem_filter.mp hentry).2
    rw [hkey, bne_self_eq_false] at hne
    cases hne
  · exact h.sublist (List.filter_sublist.map _)

namespace Reflects

/-- A new store reflects that nothing was stored. -/
theorem empty {settings : Settings.Store}
    (h : settings.backend = .expiring → settings.lifetime ≠ 0) :
    (Store.empty settings).Reflects [] := by
  refine ⟨fun _ _ => rfl, h, List.nodup_nil, fun key => ?_⟩
  change none = Trace.kept? [] settings.backend key
  cases settings.backend <;> rfl

/-- A store answers as its trace does. -/
theorem get?_eq (h : s.Reflects trace) : s.get? key = trace.kept? s.settings.backend key := by
  rw [get?, h.lasting, if_neg (fun hlapsed => Bool.false_ne_true hlapsed.2)]
  exact h.lookup_eq key

/-- As many results are kept as calls have one. -/
theorem size_eq (h : s.Reflects trace) : s.size = trace.size s.settings.backend := by
  have hkeys (key : Key) :
      key ∈ s.entries.map Prod.fst ↔ (trace.kept? s.settings.backend key).isSome = true := by
    rw [← h.lookup_eq key]
    exact (@Trace.isSome_kept?_iff s.entries .unbounded key nofun).symm
  have hcard : s.size = (s.entries.map Prod.fst).toFinset.card := by
    rw [List.toFinset_card_of_nodup h.nodup, List.length_map]
    rfl
  have hstored (hkept : s.settings.backend ≠ .disabled) :
      (s.entries.map Prod.fst).toFinset = (trace.map Prod.fst).toFinset := by
    ext key
    rw [List.mem_toFinset, List.mem_toFinset, hkeys, Trace.isSome_kept?_iff hkept]
  cases hbackend : s.settings.backend with
  | unbounded =>
    rw [hcard, hstored (by rw [hbackend]; nofun)]
    rfl
  | expiring =>
    rw [hcard, hstored (by rw [hbackend]; nofun)]
    rfl
  | disabled =>
    have hnone : s.entries.map Prod.fst = [] := by
      refine List.eq_nil_iff_forall_not_mem.mpr fun key hkey => ?_
      have hsome := (hkeys key).mp hkey
      rw [hbackend] at hsome
      cases hsome
    rw [hcard, hnone]
    rfl

/-- A result is put under a call as the longer trace has it. -/
theorem put (h : s.Reflects trace) {trace' : Trace}
    (hresults : ∀ other, trace'.kept? s.settings.backend other =
      if other = key then some result else trace.kept? s.settings.backend other) :
    (s.put key result).Reflects trace' := by
  refine ⟨h.lasting, h.timed, nodup_put h.nodup, fun other => ?_⟩
  rw [lookup_put, h.lookup_eq other]
  exact (hresults other).symm

/-- A store reflects what is stored in addition. -/
theorem insert (h : s.Reflects trace) :
    (s.insert key result).Reflects (trace ++ [(key, result)]) := by
  rw [Store.insert]
  cases hbackend : s.settings.backend with
  | disabled =>
    refine ⟨h.lasting, h.timed, h.nodup, fun other => ?_⟩
    rw [h.lookup_eq other, hbackend]
    rfl
  | unbounded =>
    dsimp only
    rw [h.get?_eq, hbackend]
    cases hfound : trace.kept? .unbounded key with
    | some found =>
      rw [if_pos Option.isSome_some]
      refine ⟨h.lasting, h.timed, h.nodup, fun other => ?_⟩
      rw [h.lookup_eq other, hbackend, Trace.kept?_unbounded_append]
      by_cases hother : other = key
      · rw [hother, hfound, Option.some_or]
      · rw [if_neg hother, Option.or_none]
    | none =>
      refine h.put fun other => ?_
      rw [hbackend, Trace.kept?_unbounded_append]
      by_cases hother : other = key
      · rw [hother, hfound, if_pos rfl, Option.none_or]
      · rw [if_neg hother, if_neg hother, Option.or_none]
  | expiring =>
    dsimp only
    rw [if_neg (h.timed hbackend)]
    refine h.put fun other => ?_
    rw [hbackend, Trace.kept?_expiring_append]

end Reflects

/-- Storing a result does not change the settings. -/
theorem settings_insert : (s.insert key result).settings = s.settings := by
  unfold insert
  split
  · rfl
  · split <;> rfl
  · split <;> rfl

/-! ## Replies -/

variable {outcome : Except Failure Call} {query : Query}

/-- A computation that is counted runs once. -/
theorem run_counted (n : Nat) : (counted outcome).run.run n = (outcome, n + 1) := by
  cases outcome <;> rfl

/-- A result that is kept is the answer, and nothing is computed. -/
theorem serve_compute_of_some (h : s.get? key = some result) :
    s.serve (.compute key outcome) = (.outcome (.ok ⟨result, true⟩) 0, s.next) := by
  rw [serve, getOrCompute_of_some h]
  rfl

/-- A result that is missing is computed once. -/
theorem serve_compute_of_none (h : s.get? key = none) :
    s.serve (.compute key outcome) =
      (.outcome (outcome.map fun call => ⟨call.result, false⟩) 1,
        match outcome with
        | .ok call => s.next.keep key call
        | .error _ => s) := by
  rw [serve, getOrCompute_of_none h, ExceptT.run_bind, StateT.run_bind, run_counted]
  cases outcome <;> rfl

/-- A failed or stopped computation leaves all entries as they are. -/
theorem entries_serve_compute (h : ∀ call, outcome = .ok call → call.stopped = true) :
    (s.serve (.compute key outcome)).2.entries = s.entries := by
  cases hget : s.get? key with
  | some result => rw [serve_compute_of_some hget, next]
  | none =>
    rw [serve_compute_of_none hget]
    cases outcome with
    | error e => rfl
    | ok call =>
      dsimp only
      rw [keep, if_pos (h call rfl), next]

/-- The backend of a store does not change. -/
theorem settings_serve : (s.serve query).2.settings = s.settings := by
  cases query with
  | get | size | clear => rfl
  | insert => exact settings_insert
  | compute key outcome =>
    cases hget : s.get? key with
    | some result => rw [serve_compute_of_some hget, next]
    | none =>
      rw [serve_compute_of_none hget]
      cases outcome with
      | error e => rfl
      | ok call =>
        dsimp only
        rw [keep]
        split
        · rfl
        · exact settings_insert

/-- A store replies as its trace does, and reflects the trace behind the query. -/
theorem Reflects.serve (h : s.Reflects trace) (query : Query) :
    (s.serve query).1 = trace.reply s.settings.backend query ∧
      (s.serve query).2.Reflects (trace.next s.settings.backend query) := by
  cases query with
  | get key => exact ⟨congrArg Reply.result h.get?_eq, h⟩
  | size => exact ⟨congrArg Reply.size h.size_eq, h⟩
  | insert key result => exact ⟨rfl, h.insert⟩
  | clear =>
    have hempty := Reflects.empty h.timed
    exact ⟨rfl, h.lasting, h.timed, hempty.nodup, hempty.lookup_eq⟩
  | compute key outcome =>
    have hnext : s.next.Reflects trace := ⟨h.lasting, h.timed, h.nodup, h.lookup_eq⟩
    have hget : s.get? key = trace.kept? s.settings.backend key := h.get?_eq
    cases hfound : trace.kept? s.settings.backend key with
    | some result =>
      rw [serve_compute_of_some (hget.trans hfound), Trace.reply, hfound]
      refine ⟨rfl, ?_⟩
      cases outcome with
      | error e => exact hnext
      | ok call =>
        rw [Trace.next, hfound]
        exact hnext
    | none =>
      rw [serve_compute_of_none (hget.trans hfound), Trace.reply, hfound]
      refine ⟨rfl, ?_⟩
      cases outcome with
      | error e => exact h
      | ok call =>
        rw [Trace.next, hfound]
        dsimp only
        rw [keep]
        cases call.stopped with
        | true => exact hnext
        | false => exact hnext.insert

/-- A store replies to queries one after another as its trace does. -/
theorem Reflects.session (h : s.Reflects trace) (queries : List Query) :
    (s.session queries).1 = trace.replies s.settings.backend queries ∧
      (s.session queries).2.settings = s.settings ∧
      (s.session queries).2.Reflects (trace.after s.settings.backend queries) := by
  induction queries generalizing s trace with
  | nil => exact ⟨rfl, rfl, h⟩
  | cons query rest ih =>
    obtain ⟨hreply, hnext⟩ := h.serve query
    obtain ⟨hreplies, hsettings, hrest⟩ := ih hnext
    rw [settings_serve] at hreplies hsettings hrest
    exact ⟨congrArg₂ List.cons hreply hreplies, hsettings, hrest⟩

/-- A store that starts empty, and in which nothing lapses, replies to queries as the trace of what
was stored since the last clear says. A computation that fails or is stopped leaves all entries as
they are, and what is kept for a call depends on the queries about that call alone. -/
theorem session_eq_replies {settings : Settings.Store}
    (h : settings.backend = .expiring → settings.lifetime ≠ 0) (queries : List Query) :
    ((empty settings).session queries).1 = Trace.replies [] settings.backend queries ∧
    (∀ key outcome, (∀ call, outcome = .ok call → call.stopped = true) →
      (((empty settings).session queries).2.serve (.compute key outcome)).2.entries =
        ((empty settings).session queries).2.entries) ∧
    ∀ key, ((empty settings).session queries).2.get? key =
      ((empty settings).session (queries.filter (·.concerns key))).2.get? key := by
  have hempty := Reflects.empty h
  obtain ⟨hreplies, hsettings, hreflects⟩ := hempty.session queries
  refine ⟨hreplies, fun key outcome => entries_serve_compute, fun key => ?_⟩
  obtain ⟨-, hsettings', hreflects'⟩ := hempty.session (queries.filter (·.concerns key))
  rw [hreflects.get?_eq, hreflects'.get?_eq, hsettings, hsettings']
  exact Trace.kept?_after_filter queries rfl

/-- The latest result is kept, a stopped computation is not, and a call is not answered by another
one that has more places. -/
theorem session_eq_replies_expiring :
    (({} : Settings.Store).backend = .expiring → ({} : Settings.Store).lifetime ≠ 0) ∧
    ((empty {}).session
        [.insert (.calculate "x" 2) ⟨"1", []⟩, .insert (.calculate "x" 2) ⟨"2", []⟩,
          .compute (.calculate "x" 3) (.ok ⟨⟨"3", []⟩, true⟩), .get (.calculate "x" 3),
          .compute (.calculate "x" 2) (.error (.interrupted "calculate")), .size]).1 =
      [.done, .done, .outcome (.ok ⟨⟨"3", []⟩, false⟩) 1, .result none,
        .outcome (.ok ⟨⟨"2", []⟩, true⟩) 0, .size 1] := by
  have htimed : ({} : Settings.Store).backend = .expiring → ({} : Settings.Store).lifetime ≠ 0 :=
    fun _ => by decide
  obtain ⟨hreplies, -⟩ := session_eq_replies htimed
    [.insert (.calculate "x" 2) ⟨"1", []⟩, .insert (.calculate "x" 2) ⟨"2", []⟩,
      .compute (.calculate "x" 3) (.ok ⟨⟨"3", []⟩, true⟩), .get (.calculate "x" 3),
      .compute (.calculate "x" 2) (.error (.interrupted "calculate")), .size]
  exact ⟨htimed, hreplies⟩

end Reckoner.Service.Store
