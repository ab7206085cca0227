import Mathlib.Data.Finset.Card
import Reckoner.Proofs.Service.Lockstep
import Reckoner.Proofs.Service.Storage

/-!
# Accounts

Which keys a request looks up does not depend on what is stored: where nothing is, a recording
engine makes all the computations that are looked up. The accounts of a service with the unbounded
backend are kept over these keys. Each one is stored, missed and computed when it is looked up for
the first time, and found whenever it is looked up again.
-/

namespace Reckoner.Service

variable {σ : Type} {engine : Engine σ} {settings : Settings} {keys : List Key} {key : Key}

/-! ## The store -/

namespace Store

/-- Of the keys that were looked up, the latest first, each is stored once with its true result. -/
structure Accounts (engine : Engine σ) (keys : List Key) (s : Store) : Prop where
  /-- Nothing is given up. -/
  backend : s.settings.backend = .unbounded
  /-- The results are true. -/
  truthful : s.Truthful engine
  /-- The keys are stored where they were looked up first. -/
  stored : s.entries.map Prod.fst = keys.dedup
  /-- All lookups are counted. -/
  lookups_eq : s.lookups = keys.length

namespace Accounts

variable {s : Store}

theorem empty {settings : Settings.Store} (h : settings.backend = .unbounded) :
    (Store.empty settings).Accounts engine [] :=
  ⟨h, Truthful.empty settings, rfl, rfl⟩

/-- As many results are stored as keys were looked up. -/
theorem size_eq (h : s.Accounts engine keys) : s.size = keys.toFinset.card := by
  rw [List.card_toFinset, ← h.stored, List.length_map, size]

/-- A result is found exactly if its key was looked up before. -/
theorem isSome_get?_iff (h : s.Accounts engine keys) : (s.get? key).isSome = true ↔ key ∈ keys := by
  have hlasting : ¬ (s.settings.backend = .expiring ∧ s.lapsed s.lookups key = true) := by
    rw [h.backend]
    rintro ⟨⟨⟩, -⟩
  rw [get?, if_neg hlasting, ← List.mem_dedup, ← h.stored]
  exact @Trace.isSome_kept?_iff s.entries .unbounded key (by decide)

/-- A key that is found was looked up before. -/
theorem hit (h : s.Accounts engine keys) (hkey : key ∈ keys) :
    s.next.Accounts engine (key :: keys) := by
  refine ⟨h.backend, h.truthful, ?_, congrArg (· + 1) h.lookups_eq⟩
  rw [List.dedup_cons_of_mem hkey]
  exact h.stored

/-- A key that is missed is looked up for the first time. -/
theorem miss (h : s.Accounts engine keys) (hkey : key ∉ keys)
    (hstopped : (key.answer engine).stopped = false) :
    (s.next.keep key (key.answer engine)).Accounts engine (key :: keys) := by
  have hnone : ¬ (s.next.get? key).isSome = true := by
    have hnext : s.next.get? key = s.get? key := by
      rw [get?, get?, next, h.backend]
      rfl
    rwa [hnext, h.isSome_get?_iff]
  have hkeep : s.next.keep key (key.answer engine) = s.next.put key (key.answer engine).result := by
    have hbackend : s.next.settings.backend = .unbounded := h.backend
    rw [keep, hstopped, if_neg Bool.false_ne_true, insert, hbackend]
    exact if_neg hnone
  have hothers : s.entries.filter (fun entry => entry.1 != key) = s.entries := by
    refine List.filter_eq_self.mpr fun entry hentry => bne_iff_ne.mpr ?_
    rintro rfl
    have hmem := List.mem_map_of_mem (f := Prod.fst) hentry
    rw [h.stored, List.mem_dedup] at hmem
    exact hkey hmem
  have hnext : s.next.Truthful engine := h.truthful
  rw [hkeep]
  refine ⟨h.backend, hnext.put, ?_, congrArg (· + 1) h.lookups_eq⟩
  rw [List.dedup_cons_of_notMem hkey, ← h.stored, put]
  exact congrArg (fun entries => key :: entries.map Prod.fst) hothers

end Accounts

end Store

/-! ## The service -/

/-- The accounts of a service over the keys that were looked up, the latest first. -/
structure Accounts (engine : Engine σ) (settings : Settings) (keys : List Key) (s : Service σ) :
    Prop where
  /-- No call runs. -/
  pool : s.pool.AsNew engine
  /-- The store keeps what was looked up. -/
  store : s.store.Accounts engine keys
  /-- There are as many misses as stored results. -/
  misses_eq : s.misses = s.store.size
  /-- Every lookup is a hit or a miss. -/
  answered_eq : s.hits + s.misses = keys.length
  /-- The engines have computed each key once. -/
  calls_eq : ∀ log, engine.Logs log → s.pool.calls log = keys.dedup
  /-- The limits of the input. -/
  limits : s.settings.limits = settings.limits
  /-- The settings of the classification. -/
  classification : s.settings.classification = settings.classification

namespace Accounts

variable {s : Service σ}

/-- A new service has open accounts. -/
theorem of_make (hmake : make settings = .ok s) (hbackend : settings.store.backend = .unbounded) :
    Accounts engine settings [] s := by
  obtain ⟨gate, hgate, rfl⟩ := exists_gate_of_make hmake
  exact ⟨Pool.asNew_ofGate hgate, .empty hbackend, rfl, rfl, fun _ _ => rfl, rfl, rfl⟩

/-- A call to the pool without a computation leaves the accounts as they are. -/
theorem exists_inPool (h : Accounts engine settings keys s) {α : Type}
    {call : Pool σ → Except Failure α × Pool σ} {outcome : Except Failure α}
    (hcall : ∃ q, call s.pool = (outcome, q) ∧ Pool.Behind engine [] s.pool q) :
    ∃ s', (inPool call).run.run s = (outcome, s') ∧ Accounts engine settings keys s' := by
  obtain ⟨q, hcall, hq⟩ := hcall
  refine ⟨{ s with pool := q }, by rw [run_inPool, hcall], ?_⟩
  refine ⟨hq.asNew, h.store, h.misses_eq, h.answered_eq, fun log hlog => ?_, h.limits,
    h.classification⟩
  exact (hq.calls_eq log hlog).trans (h.calls_eq log hlog)

/-- A lookup is booked as a hit or as a miss. -/
theorem exists_ask (h : Accounts engine settings keys s) (hengine : engine.Steadfast) (key : Key) :
    ∃ s', (key.ask engine).run.run s = (.ok (key.answer engine).result, s') ∧
      Accounts engine settings (key :: keys) s' := by
  by_cases hkey : key ∈ keys
  · obtain ⟨result, hget⟩ := Option.isSome_iff_exists.mp (h.store.isSome_get?_iff.mpr hkey)
    obtain rfl := h.store.truthful.eq_answer hget
    have hanswered : s.hits + 1 + s.misses = keys.length + 1 := by
      rw [Nat.add_right_comm, h.answered_eq]
    refine ⟨_, run_lookup_of_some hget, ⟨h.pool, h.store.hit hkey, h.misses_eq, hanswered,
      fun log hlog => ?_, h.limits, h.classification⟩⟩
    rw [List.dedup_cons_of_mem hkey]
    exact h.calls_eq log hlog
  · have hget : s.store.get? key = none :=
      Option.not_isSome_iff_eq_none.mp (mt h.store.isSome_get?_iff.mp hkey)
    obtain ⟨q, hcall, hq⟩ := h.pool.compute hengine key
    have hrun : (inPool (key.compute engine)).run.run s =
        (.ok (key.answer engine), { s with pool := q }) := by
      rw [run_inPool, hcall]
    have hstore := h.store.miss hkey (hengine.unstopped key)
    refine ⟨_, run_lookup_of_ok hget hrun, ⟨hq.asNew, hstore, ?_,
      congrArg (· + 1) h.answered_eq, fun log hlog => ?_, h.limits, h.classification⟩⟩
    · have hsize : (s.store.next.keep key (key.answer engine)).size = s.store.size + 1 := by
        rw [hstore.size_eq, h.store.size_eq, List.toFinset_cons,
          Finset.card_insert_of_notMem (mt List.mem_toFinset.mp hkey)]
      exact (congrArg (· + 1) h.misses_eq).trans hsize.symm
    · rw [List.dedup_cons_of_notMem hkey, ← h.calls_eq log hlog]
      exact hq.calls_eq log hlog

end Accounts

/-! ## What is looked up -/

/-- A service that stores nothing. -/
def storeless (settings : Settings) : Service σ :=
  let settings := { settings with store := { settings.store with backend := .disabled } }
  ⟨settings, .ofGate ⟨1, 1, 0⟩, .empty settings.store, 0, 0⟩

/-- The keys that a request looks up, the latest first: where nothing is stored, all of them are
computed. -/
def Request.lookups (engine : Engine σ) (settings : Settings) (request : Request) : List Key :=
  ((storeless settings).serve engine.recording request).2.pool.calls Prod.snd

/-- A service that stores nothing has recorded the given computations. -/
structure Recorded (engine : Engine σ) (settings : Settings) (keys : List Key)
    (t : Service (σ × List Key)) : Prop where
  /-- No call runs. -/
  pool : t.pool.AsNew engine.recording
  /-- Nothing is stored. -/
  backend : t.store.settings.backend = .disabled
  /-- Nothing was stored before. -/
  entries : t.store.entries = []
  /-- The computations are recorded. -/
  calls_eq : t.pool.calls Prod.snd = keys
  /-- The limits of the input. -/
  limits : t.settings.limits = settings.limits
  /-- The settings of the classification. -/
  classification : t.settings.classification = settings.classification

namespace Recorded

variable {t : Service (σ × List Key)}

/-- A service that stores nothing starts with no record. -/
theorem storeless (engine : Engine σ) (settings : Settings) :
    Recorded engine settings [] (storeless settings) :=
  ⟨⟨⟨Nat.one_pos, rfl⟩, fun _ hs => by cases hs⟩, rfl, rfl, rfl, rfl, rfl⟩

/-- What a call computes is recorded. -/
theorem exists_inPool (h : Recorded engine settings keys t) {α : Type}
    {call : Pool (σ × List Key) → Except Failure α × Pool (σ × List Key)}
    {outcome : Except Failure α}
    (hcall : ∃ q, call t.pool = (outcome, q) ∧ Pool.Behind engine.recording [] t.pool q) :
    ∃ t', (inPool call).run.run t = (outcome, t') ∧ Recorded engine settings keys t' := by
  obtain ⟨q, hcall, hq⟩ := hcall
  refine ⟨{ t with pool := q }, by rw [run_inPool, hcall], ?_⟩
  refine ⟨hq.asNew, h.backend, h.entries, ?_, h.limits, h.classification⟩
  exact (hq.calls_eq _ engine.recording_logs).trans h.calls_eq

/-- A lookup is a computation. -/
theorem exists_ask (h : Recorded engine settings keys t) (hengine : engine.Steadfast) (key : Key) :
    ∃ t', (key.ask engine.recording).run.run t = (.ok (key.answer engine).result, t') ∧
      Recorded engine settings (key :: keys) t' := by
  have hget : t.store.get? key = none := by
    rw [Store.get?, h.entries, h.backend]
    rfl
  obtain ⟨q, hcall, hq⟩ := h.pool.compute hengine.recording key
  have hrun : (inPool (key.compute engine.recording)).run.run t =
      (.ok (key.answer engine), { t with pool := q }) := by
    rw [run_inPool, hcall, Engine.answer_recording]
  have hkeep (call : Call) : t.store.next.keep key call = t.store.next := by
    have hbackend : t.store.next.settings.backend = .disabled := h.backend
    rw [Store.keep, Store.insert, hbackend, ite_self]
  refine ⟨_, run_lookup_of_ok hget hrun, ?_⟩
  rw [hkeep]
  refine ⟨hq.asNew, h.backend, h.entries, ?_, h.limits, h.classification⟩
  exact (hq.calls_eq _ engine.recording_logs).trans (congrArg (key :: ·) h.calls_eq)

end Recorded

/-- The first service has booked what the second has recorded, behind the given keys. -/
def Booked (engine : Engine σ) (settings : Settings) (keys : List Key) (s : Service σ)
    (t : Service (σ × List Key)) : Prop :=
  ∃ recorded, Accounts engine settings (recorded ++ keys) s ∧ Recorded engine settings recorded t

/-- Whatever is looked up is booked and recorded. -/
theorem lockstep_booked (hengine : engine.Steadfast) (settings : Settings) (keys : List Key) :
    Lockstep engine engine.recording (Booked engine settings keys) where
  limits := by
    rintro s t ⟨_, hs, ht⟩
    rw [hs.limits, ht.limits]
  classification := by
    rintro s t ⟨_, hs, ht⟩
    rw [hs.classification, ht.classification]
  validateSyntax text := by
    rintro s t ⟨recorded, hs, ht⟩
    obtain ⟨s', hrun, hs'⟩ := hs.exists_inPool (hs.pool.validate hengine text)
    obtain ⟨t', hrun', ht'⟩ := ht.exists_inPool (ht.pool.validate hengine.recording text)
    rw [validateSyntax, validateSyntax, hrun, hrun']
    exact ⟨rfl, recorded, hs', ht'⟩
  ask key := by
    rintro s t ⟨recorded, hs, ht⟩
    obtain ⟨s', hrun, hs'⟩ := hs.exists_ask hengine key
    obtain ⟨t', hrun', ht'⟩ := ht.exists_ask hengine key
    rw [hrun, hrun']
    exact ⟨rfl, key :: recorded, hs', ht'⟩
  display r := by
    rintro s t ⟨recorded, hs, ht⟩
    obtain ⟨s', hrun, hs'⟩ := hs.exists_inPool (hs.pool.display hengine r)
    obtain ⟨t', hrun', ht'⟩ := ht.exists_inPool (ht.pool.display hengine.recording r)
    rw [display, display, hrun, hrun']
    exact ⟨rfl, recorded, hs', ht'⟩
  cancel := by
    rintro s t ⟨recorded, hs, ht⟩
    have hp := hs.pool.requestStop hengine
    have hq := ht.pool.requestStop hengine.recording
    refine ⟨recorded, ⟨hp.asNew, hs.store, hs.misses_eq, hs.answered_eq, fun log hlog => ?_,
      hs.limits, hs.classification⟩, ⟨hq.asNew, ht.backend, ht.entries, ?_, ht.limits,
      ht.classification⟩⟩
    · exact (hp.calls_eq log hlog).trans (hs.calls_eq log hlog)
    · exact (hq.calls_eq _ engine.recording_logs).trans ht.calls_eq

/-! ## Sessions -/

namespace Accounts

variable {s : Service σ}

/-- The lookups of a request are booked. -/
theorem serve (h : Accounts engine settings keys s) (hengine : engine.Steadfast)
    {request : Request} (hrequest : request ≠ .forget) :
    Accounts engine settings (request.lookups engine settings ++ keys)
      (s.serve engine request).2 := by
  have hbooked : Booked engine settings keys s (storeless settings) :=
    ⟨[], h, .storeless engine settings⟩
  obtain ⟨-, recorded, hs, ht⟩ :=
    (lockstep_booked hengine settings keys).serve hbooked hrequest
  rwa [Request.lookups, ht.calls_eq]

/-- The lookups of a session are booked. -/
theorem session (h : Accounts engine settings keys s) (hengine : engine.Steadfast)
    {requests : List Request} (hforget : Request.forget ∉ requests) :
    Accounts engine settings
      (requests.reverse.flatMap (·.lookups engine settings) ++ keys)
      (s.session engine requests).2 := by
  induction requests generalizing s keys with
  | nil => exact h
  | cons request rest ih =>
    rw [List.mem_cons, not_or] at hforget
    rw [List.reverse_cons, List.flatMap_append, List.flatMap_singleton, List.append_assoc]
    exact ih (h.serve hengine (Ne.symm hforget.1)) hforget.2

/-- Keys that were looked up before are looked up without a miss, an entry or a computation. -/
theorem eq_of_subset {s' : Service σ} {others : List Key} (h : Accounts engine settings keys s)
    (h' : Accounts engine settings (others ++ keys) s') (hsubset : others ⊆ keys) :
    s'.misses = s.misses ∧ s'.store.size = s.store.size ∧
      ∀ log, engine.Logs log → s'.pool.calls log = s.pool.calls log := by
  have hstored : (others ++ keys).dedup = keys.dedup := List.Subset.dedup_append_right hsubset
  have hsize : s'.store.size = s.store.size := by
    rw [h'.store.size_eq, h.store.size_eq, List.card_toFinset, List.card_toFinset, hstored]
  refine ⟨by rw [h'.misses_eq, h.misses_eq, hsize], hsize, fun log hlog => ?_⟩
  rw [h'.calls_eq log hlog, h.calls_eq log hlog, hstored]

end Accounts

/-- Behind any requests to a new service with the unbounded backend, none of them to forget, there
are as many misses and as many entries as different keys were looked up, and as many answers as
lookups; the engines have computed each key once. A request that is made again adds no miss, no
entry and no computation. -/
theorem session_accounts {engine : Engine σ} (hengine : engine.Steadfast) {settings : Settings}
    (hbackend : settings.store.backend = .unbounded) {s : Service σ}
    (hmake : make settings = .ok s) {requests : List Request}
    (hforget : Request.forget ∉ requests) :
    let keys := requests.reverse.flatMap (·.lookups engine settings)
    let after := (s.session engine requests).2
    after.misses = keys.toFinset.card ∧ after.store.size = keys.toFinset.card ∧
    after.hits + after.misses = keys.length ∧ after.store.lookups = keys.length ∧
    (∀ log, engine.Logs log → after.pool.calls log = keys.dedup) ∧
    ∀ request ∈ requests,
      let again := (after.serve engine request).2
      again.misses = after.misses ∧ again.store.size = after.store.size ∧
      ∀ log, engine.Logs log → again.pool.calls log = after.pool.calls log := by
  intro keys after
  have hafter : Accounts engine settings keys after := by
    have hnew : Accounts engine settings [] s := .of_make hmake hbackend
    have hsession := hnew.session hengine hforget
    rwa [List.append_nil] at hsession
  have hsize := hafter.store.size_eq
  refine ⟨hafter.misses_eq.trans hsize, hsize, hafter.answered_eq, hafter.store.lookups_eq,
    hafter.calls_eq, fun request hmem => ?_⟩
  have hrequest : request ≠ .forget := fun heq => hforget (heq ▸ hmem)
  refine hafter.eq_of_subset (hafter.serve hengine hrequest) ?_
  exact fun key hkey => List.mem_flatMap.mpr ⟨request, List.mem_reverse.mpr hmem, hkey⟩

/-- A vector, an equation with a value filled in and one that the engine fails on, and a
classification, which needs the value only; then the batch again. -/
theorem session_accounts_repeated :
    Engine.builtin.recording.Steadfast ∧
    ∃ s : Service (Builtin.State × List Key),
      make { store := { backend := .unbounded } } = .ok s ∧
      Request.forget ∉ [.evaluate ["\x7b1,2\x7d", "a=1/3", "[a] = = x", "1/0 == x"] {},
        .classify "a == 2"] ∧
      let after := (s.session Engine.builtin.recording
        [.evaluate ["\x7b1,2\x7d", "a=1/3", "[a] = = x", "1/0 == x"] {}, .classify "a == 2"]).2
      after.misses = 4 ∧ after.hits + after.misses = 7 ∧
      after.pool.calls Prod.snd = [.evaluate "a==2", .evaluate "1/0==x", .evaluate "((1/3))==x",
        .evaluate "\x7b1,2\x7d"] ∧
      let again := (after.serve Engine.builtin.recording
        (.evaluate ["\x7b1,2\x7d", "a=1/3", "[a] = = x", "1/0 == x"] {})).2
      again.misses = 4 ∧ again.pool.calls Prod.snd = after.pool.calls Prod.snd := by
  let requests : List Request :=
    [.evaluate ["\x7b1,2\x7d", "a=1/3", "[a] = = x", "1/0 == x"] {}, .classify "a == 2"]
  let settings : Settings := { store := { backend := .unbounded } }
  have hengine := Engine.builtin_steadfast.recording
  obtain ⟨s, hmake, -⟩ := @Tidy.exists_make _ Engine.builtin.recording settings rfl
  have hforget : Request.forget ∉ requests := by decide
  have hkeys : requests.reverse.flatMap (·.lookups Engine.builtin.recording settings) =
      [.evaluate "a==2", .evaluate "1/0==x", .evaluate "1/0==x", .evaluate "((1/3))==x",
        .evaluate "((1/3))==x", .evaluate "\x7b1,2\x7d", .evaluate "\x7b1,2\x7d"] := by
    decide +kernel
  obtain ⟨hmisses, -, hanswered, -, hcalls, hagain⟩ :=
    session_accounts hengine rfl hmake hforget
  rw [hkeys] at hmisses hanswered hcalls
  obtain ⟨hmore, -, hnone⟩ := hagain _ (.head _)
  refine ⟨hengine, s, hmake, hforget, hmisses, hanswered, ?_, hmore.trans hmisses, ?_⟩
  · exact hcalls _ Engine.builtin.recording_logs
  · exact hnone _ Engine.builtin.recording_logs

end Reckoner.Service
