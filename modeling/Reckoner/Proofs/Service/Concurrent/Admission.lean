import Mathlib.Tactic.ByContra
import Reckoner.Proofs.Service.Concurrent.Tokens

/-!
# Callers who are interrupted

A caller who waits when there has been an interruption since it came never passes. It needs at most
three more moves, none of which depends on others, until it has given up and has no token. So it
gives up in every run that goes on for ever and does not leave it out.
-/

namespace Reckoner.Service.Concurrent

/-! ## Callers who cannot pass -/

namespace Stand

/-- What the caller has seen, as long as it may still pass or give up. -/
def seen? : Stand → Option UInt64
  | arrived seen | waiting seen | roused seen | served seen => some seen
  | away | leaving | holding | refused => none

/-- The caller found no token at once, and has not passed or given up since. -/
def isBlocked : Stand → Bool
  | waiting _ | roused _ | served _ => true
  | away | arrived _ | leaving | holding | refused => false

/-- A caller who came when there were `seen` interruptions cannot pass any more. -/
inductive Barred (seen : UInt64) : Stand → Prop
  | waiting : Barred seen (.waiting seen)
  | roused : Barred seen (.roused seen)
  | served : Barred seen (.served seen)
  | leaving : Barred seen .leaving
  | refused : Barred seen .refused

/-- How many moves a caller who cannot pass makes at most until it has given up. -/
def movesLeft : Stand → Nat
  | waiting _ => 3
  | roused _ | served _ => 2
  | leaving => 1
  | away | arrived _ | holding | refused => 0

/-- A caller who cannot pass has three moves at most. -/
theorem movesLeft_le (stand : Stand) : stand.movesLeft ≤ 3 := by
  cases stand <;> simp [movesLeft]

/-- A blocked caller remembers what it saw, and cannot pass if that is out of date. -/
theorem barred_of_isBlocked {stand : Stand} (h : stand.isBlocked = true) :
    ∃ seen, stand.seen? = some seen ∧ stand.Barred seen := by
  cases stand with
  | waiting seen => exact ⟨seen, rfl, .waiting⟩
  | roused seen => exact ⟨seen, rfl, .roused⟩
  | served seen => exact ⟨seen, rfl, .served⟩
  | away | arrived | leaving | holding | refused => cases h

end Stand

/-- The tokens that a caller was given while it waited, and those that it gave back, make up for the
difference between where it stood and where it stands. -/
def Settles (i : Nat) (moves : List Move) (old new : Stand) : Prop :=
  old.hasToken.toNat + moves.count (.receive i) = new.hasToken.toNat + moves.count (.giveBack i)

namespace Settles

variable {i : Nat} {moves : List Move}

/-- Moves of others give and take nothing. -/
theorem of_others (h : ∀ move ∈ moves, move.caller? ≠ some i) (stand : Stand) :
    Settles i moves stand stand := by
  have hreceive : moves.count (.receive i) = 0 := List.count_eq_zero.mpr fun hm => h _ hm rfl
  have hgiveBack : moves.count (.giveBack i) = 0 := List.count_eq_zero.mpr fun hm => h _ hm rfl
  rw [Settles, hreceive, hgiveBack]

theorem append {behind : List Move} {old mid new : Stand} (h : Settles i moves old mid)
    (hbehind : Settles i behind mid new) : Settles i (moves ++ behind) old new := by
  unfold Settles at *
  rw [List.count_append, List.count_append]
  omega

end Settles

namespace Stride

variable {gate next : Gate} {i : Nat} {move : Move} {old new : Stand}

/-- Until it passes or gives up, a caller remembers what it saw when it came. -/
theorem seen?_eq (h : Stride gate i move old new next) (hmove : move ≠ .arrive i) {seen : UInt64}
    (hseen : new.seen? = some seen) : old.seen? = some seen := by
  cases h with
  | arrive | comeBack => exact absurd rfl hmove
  | wait | receive | timeOut | goOn => exact hseen
  | pass | turnBack | enter | giveUp | giveBack | leave => cases hseen

/-- As long as a caller waits, it has the tokens that it was given and has not given back. -/
theorem settles (h : Stride gate i move old new next) (hmove : move ≠ .arrive i)
    (hseen : new.seen? ≠ none) : Settles i [move] old new := by
  unfold Settles
  cases h with
  | arrive | comeBack => exact absurd rfl hmove
  | wait | receive | timeOut | goOn => simp [Stand.hasToken]
  | pass | turnBack | enter | giveUp | giveBack | leave => exact absurd rfl hseen

/-- A caller who cannot pass comes closer to giving up with each of its moves. -/
theorem barred {seen : UInt64} (h : Stride gate i move old new next) (hmove : move ≠ .arrive i)
    (hold : old.Barred seen) (hseen : gate.interruptions ≠ seen) :
    new.Barred seen ∧ new.movesLeft < old.movesLeft ∧ Settles i [move] old new := by
  unfold Settles
  cases hold with
  | waiting =>
    cases h with
    | receive => exact ⟨.served, Nat.lt_add_one 2, by simp [Stand.hasToken]⟩
    | timeOut => exact ⟨.roused, Nat.lt_add_one 2, by simp [Stand.hasToken]⟩
  | roused =>
    cases h with
    | goOn h => exact absurd h hseen
    | turnBack => exact ⟨.refused, Nat.zero_lt_two, by simp [Stand.hasToken]⟩
  | served =>
    cases h with
    | enter h => exact absurd h hseen
    | giveUp => exact ⟨.leaving, Nat.one_lt_two, by simp [Stand.hasToken]⟩
  | leaving =>
    cases h with
    | leave => exact ⟨.refused, Nat.zero_lt_one, by simp [Stand.hasToken]⟩
  | refused =>
    cases h with
    | comeBack => exact absurd rfl hmove

end Stride

namespace Crowd

variable {c d : Crowd} {move : Move} {moves : List Move}

/-! ## Interruptions -/

/-- A caller notices that there were interruptions, unless there were too many. -/
theorem add_ofNat_ne {seen : UInt64} {n : Nat} (hpos : 0 < n) (hlt : n < UInt64.size) :
    seen + UInt64.ofNat n ≠ seen := by
  intro h
  have hseen := seen.toNat_lt
  change n < 18446744073709551616 at hlt
  have htoNat := congrArg UInt64.toNat h
  rw [UInt64.toNat_add, UInt64.toNat_ofNat_of_lt' hlt] at htoNat
  omega

/-- A caller who has neither passed nor given up is in the call that it came for: it remembers what
it saw then, and has the tokens that it was given and has not given back. -/
theorem remembers_of_run {i : Nat} {new : Stand} {seen : UInt64} (h : c.run moves = some d)
    (hmoves : .arrive i ∉ moves) (hnew : d.callers[i]? = some new)
    (hseen : new.seen? = some seen) :
    ∃ old, c.callers[i]? = some old ∧ old.seen? = some seen ∧ Settles i moves old new := by
  induction moves generalizing c with
  | nil =>
    cases h
    exact ⟨new, hnew, hseen, rfl⟩
  | cons move rest ih =>
    obtain ⟨b, hstep, hrest⟩ := run_cons.mp h
    obtain ⟨mid, hmid, hseen', hsettles⟩ := ih hrest fun h => hmoves (.tail _ h)
    rcases caller_of_step hstep i with ⟨hother, hstays⟩ | ⟨old, _, gate, hold, hmid', hstride⟩
    · have hmove : Settles i [move] mid mid := .of_others (List.forall_mem_singleton.mpr hother) mid
      exact ⟨mid, hstays ▸ hmid, hseen', hmove.append hsettles⟩
    · cases hmid.symm.trans hmid'
      have hmove : move ≠ .arrive i := fun h => hmoves (h ▸ .head _)
      have hmoved : Settles i [move] old mid := by
        refine hstride.settles hmove ?_
        rw [hseen']
        nofun
      exact ⟨old, hold, hstride.seen?_eq hmove hseen', hmoved.append hsettles⟩

/-- A caller who cannot pass gives up, with at most as many moves as are left. -/
theorem barred_of_run {i n : Nat} {old : Stand} {seen : UInt64} (h : c.run moves = some d)
    (hmoves : .arrive i ∉ moves) (hold : c.callers[i]? = some old) (hbarred : old.Barred seen)
    (hn : c.gate.interruptions = seen + UInt64.ofNat n) (hpos : 0 < n)
    (hlt : n + moves.count .interrupt < UInt64.size) :
    ∃ new, d.callers[i]? = some new ∧ new.Barred seen ∧ Settles i moves old new ∧
      new.movesLeft + moves.countP (·.caller? == some i) ≤ old.movesLeft := by
  induction moves generalizing c old n with
  | nil =>
    cases h
    exact ⟨old, hold, hbarred, rfl, Nat.le_refl _⟩
  | cons move rest ih =>
    obtain ⟨b, hstep, hrest⟩ := run_cons.mp h
    have hrest' : .arrive i ∉ rest := fun h => hmoves (.tail _ h)
    rw [← List.singleton_append, List.count_append] at hlt
    have hb : b.gate.interruptions = seen + UInt64.ofNat (n + [move].count .interrupt) := by
      have hone : c.run [move] = some b := run_cons.mpr ⟨b, hstep, rfl⟩
      rw [interruptions_of_run hone, hn, UInt64.ofNat_add, UInt64.add_assoc]
    rcases caller_of_step hstep i with ⟨hother, hstays⟩ | ⟨_, mid, gate, hold', hmid, hstride⟩
    · obtain ⟨new, hnew, hbarred', hsettles, hleft⟩ := ih hrest hrest' (hstays.trans hold) hbarred
        hb (by omega) (by omega)
      have hmove : Settles i [move] old old := .of_others (List.forall_mem_singleton.mpr hother) old
      refine ⟨new, hnew, hbarred', hmove.append hsettles, ?_⟩
      rw [List.countP_cons_of_neg (by simpa using hother)]
      exact hleft
    · cases hold.symm.trans hold'
      have hmove : move ≠ .arrive i := fun h => hmoves (h ▸ .head _)
      have hne : c.gate.interruptions ≠ seen := by
        rw [hn]
        exact add_ofNat_ne hpos (by omega)
      obtain ⟨hmidBarred, hless, hmoved⟩ := hstride.barred hmove hbarred hne
      obtain ⟨new, hnew, hbarred', hsettles, hleft⟩ := ih hrest hrest' hmid hmidBarred hb
        (by omega) (by omega)
      refine ⟨new, hnew, hbarred', hmoved.append hsettles, ?_⟩
      rw [List.countP_cons_of_pos (by simpa using hstride.caller?_eq)]
      omega

/-- Between its arrival and a moment when it waits, a caller is interrupted. -/
structure Interrupted (start : Crowd) (before between : List Move) (i : Nat) (c : Crowd) :
    Prop where
  /-- The caller comes behind some moves, and other moves follow. -/
  run : start.run (before ++ .arrive i :: between) = some c
  /-- It does not come again. -/
  stays : .arrive i ∉ between
  /-- Meanwhile there is an interruption. -/
  interrupt : .interrupt ∈ between
  /-- The caller found no token at once, and waits. -/
  blocked : ∃ stand, c.callers[i]? = some stand ∧ stand.isBlocked = true

/-- A caller can go on with its call. -/
def CanGoOn (c : Crowd) (i : Nat) : Prop :=
  ∃ move, move.caller? = some i ∧ move ≠ .arrive i ∧ (c.step move).isSome = true

/-- What has become of an interrupted caller. -/
structure GivesUp (i : Nat) (between after : List Move) (c : Crowd) : Prop where
  /-- It has not passed. -/
  outcome : ∀ operation, c.outcome? i operation = none ∨
    c.outcome? i operation = some (.error (.interrupted operation))
  /-- It has not moved often. -/
  bounded : after.countP (·.caller? == some i) ≤ 3
  /-- It can go on, whatever others do, until it has given up. -/
  progress : ∀ operation, c.outcome? i operation = none → c.CanGoOn i
  /-- Once it has given up, it has no token, and has given back what it was given. -/
  returned : ∀ operation, c.outcome? i operation ≠ none →
    c.callers[i]?.any Stand.hasToken = false ∧
      (between ++ after).count (.receive i) = (between ++ after).count (.giveBack i)

section

variable {i : Nat} {stand : Stand} {seen : UInt64}

/-- Whatever others do, a caller who cannot pass can go on until it has given up. -/
theorem canGoOn_of_barred (hstand : c.callers[i]? = some stand) (h : stand.Barred seen)
    (hne : stand ≠ .refused) : c.CanGoOn i := by
  cases h with
  | waiting =>
    refine ⟨.timeOut i, rfl, Move.noConfusion, ?_⟩
    simp only [step, hstand, Option.isSome_some]
  | roused | served =>
    refine ⟨.look i, rfl, Move.noConfusion, ?_⟩
    simp only [step, hstand, Option.isSome_some]
  | leaving =>
    refine ⟨.giveBack i, rfl, Move.noConfusion, ?_⟩
    simp only [step, hstand, Option.isSome_some]
  | refused => exact absurd rfl hne

/-- Nobody goes on with a call that is refused. -/
theorem not_canGoOn_of_refused (h : c.callers[i]? = some .refused) : ¬ c.CanGoOn i := by
  rintro ⟨move, hcaller, hmove, hstep⟩
  obtain ⟨d, hd⟩ := Option.isSome_iff_exists.mp hstep
  rcases caller_of_step hd i with ⟨hother, -⟩ | ⟨old, new, gate, hold, -, hstride⟩
  · exact hother hcaller
  · cases h.symm.trans hold
    cases hstride
    exact hmove rfl

/-- A caller who cannot pass fails as soon as it has given up. -/
theorem outcome?_of_barred (hstand : c.callers[i]? = some stand) (h : stand.Barred seen)
    (operation : String) :
    c.outcome? i operation =
      if stand = .refused then some (.error (.interrupted operation)) else none := by
  rw [outcome?, hstand]
  cases h with
  | refused => rfl
  | _ => rfl

/-- A caller who cannot pass gives up. -/
theorem givesUp_of_barred {between after : List Move} {first : Stand}
    (hstand : c.callers[i]? = some stand) (hbarred : stand.Barred seen)
    (hfirst : first.hasToken = false) (hsettles : Settles i (between ++ after) first stand)
    (hbounded : after.countP (·.caller? == some i) ≤ 3) : GivesUp i between after c := by
  have houtcome := outcome?_of_barred hstand hbarred
  by_cases hrefused : stand = .refused
  · subst hrefused
    refine ⟨fun operation => .inr (houtcome operation), hbounded, ?_, ?_⟩
    · intro operation h
      rw [houtcome] at h
      cases h
    · intro _ _
      constructor
      · rw [hstand]
        rfl
      · rw [Settles, hfirst] at hsettles
        exact Nat.add_left_cancel hsettles
  · have hundecided (operation : String) : c.outcome? i operation = none := by
      rw [houtcome, if_neg hrefused]
    refine ⟨fun operation => .inl (hundecided operation), hbounded, ?_, ?_⟩
    · intro _ _
      exact canGoOn_of_barred hstand hbarred hrefused
    · intro operation h
      exact absurd (hundecided operation) h

end

/-- An interrupted caller gives up. -/
theorem Interrupted.givesUp {start middle : Crowd} {before between after : List Move} {i : Nat}
    (h : Interrupted start before between i middle) (hafter : middle.run after = some d)
    (hstays : .arrive i ∉ after) (hfew : (between ++ after).count .interrupt < UInt64.size) :
    GivesUp i between after d := by
  obtain ⟨came, hbefore, hcall⟩ := run_append.mp h.run
  obtain ⟨first, harrive, hbetween⟩ := run_cons.mp hcall
  obtain ⟨stand, hstand, hblocked⟩ := h.blocked
  obtain ⟨seen, hseen, hbarred⟩ := Stand.barred_of_isBlocked hblocked
  -- When it came it had no token, and saw how many interruptions there were.
  obtain ⟨old, hold, hseen', hsettles⟩ := remembers_of_run hbetween h.stays hstand hseen
  cases hold.symm.trans (arrived_of_step harrive)
  cases hseen'
  rw [List.count_append] at hfew
  obtain ⟨new, hnew, hbarred', hsettles', hleft⟩ := barred_of_run hafter hstays hstand hbarred
    (interruptions_of_run hbetween) (List.count_pos_iff.mpr h.interrupt) hfew
  have hbounded : after.countP (·.caller? == some i) ≤ 3 := by
    have hle := stand.movesLeft_le
    omega
  exact givesUp_of_barred hnew hbarred' rfl (hsettles.append hsettles') hbounded

/-! ## Endless runs -/

/-- Callers move for ever, and one of them, who does not come again, goes on sooner or later if it
can. -/
structure FairRun (i : Nat) (start : Crowd) (moves : Nat → Move) (crowds : Nat → Crowd) : Prop where
  /-- The run starts somewhere. -/
  start_eq : crowds 0 = start
  /-- Each move leads to the next crowd. -/
  step_eq : ∀ n, (crowds n).step (moves n) = some (crowds (n + 1))
  /-- The caller does not come again. -/
  stays : ∀ n, moves n ≠ .arrive i
  /-- The caller goes on if it can. -/
  fair : ∀ n, (crowds n).CanGoOn i → ∃ k, n ≤ k ∧ (moves k).caller? = some i

/-- The first moves of an endless run. -/
def firstMoves (moves : Nat → Move) (n : Nat) : List Move := (List.range n).map moves

namespace FairRun

variable {i : Nat} {start : Crowd} {moves : Nat → Move} {crowds : Nat → Crowd}

/-- The first moves lead to the crowd behind them. -/
theorem run_firstMoves (h : FairRun i start moves crowds) (n : Nat) :
    start.run (firstMoves moves n) = some (crowds n) := by
  induction n with
  | zero => exact congrArg some h.start_eq.symm
  | succ n ih =>
    rw [firstMoves, List.range_succ, List.map_append]
    exact run_append.mpr ⟨crowds n, ih, run_cons.mpr ⟨_, h.step_eq n, rfl⟩⟩

/-- The caller does not come again among the first moves. -/
theorem arrive_notMem (h : FairRun i start moves crowds) (n : Nat) :
    .arrive i ∉ firstMoves moves n := by
  intro hmem
  obtain ⟨k, -, hk⟩ := List.mem_map.mp hmem
  exact h.stays k hk

/-- A caller who can always go on does so as often as one likes. -/
theorem exists_le_countP (h : FairRun i start moves crowds) (hmoves : ∀ n, (crowds n).CanGoOn i)
    (m : Nat) : ∃ n, m ≤ (firstMoves moves n).countP (·.caller? == some i) := by
  induction m with
  | zero => exact ⟨0, Nat.zero_le _⟩
  | succ m ih =>
    obtain ⟨n, hn⟩ := ih
    obtain ⟨k, hnk, hk⟩ := h.fair n (hmoves n)
    have hsub : (firstMoves moves n).Sublist (firstMoves moves k) :=
      (List.range_sublist.mpr hnk).map moves
    have hle := hsub.countP_le (p := (·.caller? == some i))
    refine ⟨k + 1, ?_⟩
    have hone : [moves k].countP (·.caller? == some i) = 1 :=
      List.countP_cons_of_pos (by simpa using hk)
    rw [firstMoves, List.range_succ, List.map_append, List.countP_append]
    change m + 1 ≤ (firstMoves moves k).countP _ + [moves k].countP _
    omega

/-- In an endless run, an interrupted caller has given up at some point. -/
theorem exists_refused {first : Crowd} {before between : List Move}
    (h : FairRun i start moves crowds) (hinterrupted : Interrupted first before between i start)
    (hfew : ∀ n, (between ++ firstMoves moves n).count .interrupt < UInt64.size)
    (operation : String) :
    ∃ n, (crowds n).outcome? i operation = some (.error (.interrupted operation)) := by
  have hgivesUp (n : Nat) : GivesUp i between (firstMoves moves n) (crowds n) :=
    hinterrupted.givesUp (h.run_firstMoves n) (h.arrive_notMem n) (hfew n)
  by_contra hnever
  have hundecided (n : Nat) : (crowds n).outcome? i operation = none :=
    ((hgivesUp n).outcome operation).resolve_right fun hn => hnever ⟨n, hn⟩
  obtain ⟨n, hn⟩ := h.exists_le_countP (fun n => (hgivesUp n).progress operation (hundecided n)) 4
  have hbounded := (hgivesUp n).bounded
  omega

end FairRun

/-- However callers move at a gate, its tokens are conserved. Whoever is interrupted while it waits
gives up without a token, unless there are too many interruptions to count. -/
theorem gathered_conserves_tokens {capacity : Nat} (hcapacity : 1 ≤ capacity) :
    ∃ gate, Gate.make capacity = .ok gate ∧ ∀ callers : Nat,
      (∀ moves c, (gathered gate callers).run moves = some c → c.Conserved capacity) ∧
      ∀ i before between middle, Interrupted (gathered gate callers) before between i middle →
        (∀ after c, middle.run after = some c → .arrive i ∉ after →
          (before ++ between ++ after).count .interrupt < UInt64.size → GivesUp i between after c) ∧
        ∀ moves crowds, FairRun i middle moves crowds →
          (∀ n, (before ++ between ++ firstMoves moves n).count .interrupt < UInt64.size) →
            ∀ operation, ∃ n,
              (crowds n).outcome? i operation = some (.error (.interrupted operation)) := by
  have hmake : Gate.make capacity = .ok ⟨capacity, capacity, 0⟩ :=
    if_neg (Nat.ne_of_gt hcapacity)
  have hfew {before between after : List Move}
      (h : (before ++ between ++ after).count .interrupt < UInt64.size) :
      (between ++ after).count .interrupt < UInt64.size := by
    rw [List.append_assoc, List.count_append] at h
    omega
  refine ⟨_, hmake, ?_⟩
  intro callers
  constructor
  · intro moves c hrun
    have hbalanced : c.Balanced capacity := (balanced_gathered 0 callers).run hrun
    exact hbalanced.conserved
  · intro i before between middle hinterrupted
    constructor
    · intro after c hafter hstays hcount
      exact hinterrupted.givesUp hafter hstays (hfew hcount)
    · intro moves crowds hrun hcount operation
      exact hrun.exists_refused hinterrupted (fun n => hfew (hcount n)) operation

/-- A caller looks and gives back what it was given. From then on, another comes and goes for
ever. -/
def comings : Nat → Move
  | 0 => .look 1
  | 1 => .giveBack 1
  | n + 2 =>
    match n % 3 with
    | 0 => .arrive 0
    | 1 => .reach 0
    | _ => .giveBack 0

/-- The crowds on the way, with one token and one interruption. -/
def comers : Nat → Crowd
  | 0 => ⟨⟨1, 0, 1⟩, [.away, .served 0]⟩
  | 1 => ⟨⟨1, 0, 1⟩, [.away, .leaving]⟩
  | n + 2 =>
    match n % 3 with
    | 0 => ⟨⟨1, 1, 1⟩, [.away, .refused]⟩
    | 1 => ⟨⟨1, 1, 1⟩, [.arrived 1, .refused]⟩
    | _ => ⟨⟨1, 0, 1⟩, [.holding, .refused]⟩

/-- The caller who gives up is never in the way. -/
theorem fairRun_comings : FairRun 1 ⟨⟨1, 0, 1⟩, [.away, .served 0]⟩ comings comers where
  start_eq := rfl
  step_eq
    | 0 => by decide
    | 1 => by decide
    | n + 2 => by
      have hmod : n % 3 = 0 ∨ n % 3 = 1 ∨ n % 3 = 2 := by omega
      rcases hmod with h | h | h
      · have hnext : (n + 1) % 3 = 1 := by omega
        simp only [comings, comers, h, hnext]
        rfl
      · have hnext : (n + 1) % 3 = 2 := by omega
        simp only [comings, comers, h, hnext]
        rfl
      · have hnext : (n + 1) % 3 = 0 := by omega
        simp only [comings, comers, h, hnext]
        rfl
  stays
    | 0 => nofun
    | 1 => nofun
    | n + 2 => by
      dsimp only [comings]
      split <;> nofun
  fair
    | 0, _ => ⟨0, Nat.le_refl 0, rfl⟩
    | 1, _ => ⟨1, Nat.le_refl 1, rfl⟩
    | n + 2, h => by
      refine absurd h (not_canGoOn_of_refused ?_)
      dsimp only [comers]
      split <;> rfl

/-- Nobody is interrupted on the way. -/
theorem count_comings (n : Nat) : (firstMoves comings n).count .interrupt = 0 := by
  refine List.count_eq_zero.mpr fun hmem => ?_
  obtain ⟨k, -, hk⟩ := List.mem_map.mp hmem
  match k with
  | 0 => cases hk
  | 1 => cases hk
  | k + 2 =>
    dsimp only [comings] at hk
    split at hk <;> cases hk

/-- With one token, a second caller waits, is interrupted and is then given the token. It gives it
back, whether there are more moves or not. -/
theorem gathered_conserves_tokens_served :
    ∃ gate c, Gate.make 1 = .ok gate ∧
      (gathered gate 2).run [.arrive 0, .reach 0, .arrive 1, .reach 1, .interrupt, .giveBack 0,
        .receive 1, .look 1, .giveBack 1] = some c ∧
      c.Conserved 1 ∧ c.outcome? 1 "evaluate" = some (.error (.interrupted "evaluate")) ∧
      GivesUp 1 [.reach 1, .interrupt, .giveBack 0, .receive 1] [.look 1, .giveBack 1] c ∧
      ∃ n, (comers n).outcome? 1 "evaluate" = some (.error (.interrupted "evaluate")) := by
  obtain ⟨gate, hmake, h⟩ := gathered_conserves_tokens (Nat.le_refl 1)
  obtain ⟨hconserved, hgivesUp⟩ := h 2
  cases hmake
  have hrun : (gathered ⟨1, 1, 0⟩ 2).run [.arrive 0, .reach 0, .arrive 1, .reach 1, .interrupt,
      .giveBack 0, .receive 1, .look 1, .giveBack 1] =
        some ⟨⟨1, 1, 1⟩, [.away, .refused]⟩ := by decide
  have hinterrupted : Interrupted (gathered ⟨1, 1, 0⟩ 2) [.arrive 0, .reach 0]
      [.reach 1, .interrupt, .giveBack 0, .receive 1] 1 ⟨⟨1, 0, 1⟩, [.away, .served 0]⟩ :=
    ⟨by decide, by decide, by decide, .served 0, rfl, rfl⟩
  obtain ⟨hends, hrefused⟩ := hgivesUp _ _ _ _ hinterrupted
  have hgaveUp := hends [.look 1, .giveBack 1] ⟨⟨1, 1, 1⟩, [.away, .refused]⟩ (by decide)
    (by decide) (by decide)
  refine ⟨_, _, rfl, hrun, hconserved _ _ hrun, rfl, hgaveUp, ?_⟩
  refine hrefused comings comers fairRun_comings (fun n => ?_) "evaluate"
  rw [List.count_append, count_comings]
  decide

end Crowd

end Reckoner.Service.Concurrent
