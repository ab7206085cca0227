import Reckoner.Service.Concurrent.Crowd

/-!
# Tokens under every interleaving

Whatever order callers move in, tokens are neither lost nor made: those that are free and those that
callers have make up the capacity of the gate. So there are never more callers with a token than
tokens, and there is always room for a token that is given back.
-/

namespace Reckoner.Service

namespace Gate

variable {gate next : Gate}

/-- A token that is taken was free. -/
theorem free_of_take? (h : gate.take? = some next) : next.free + 1 = gate.free := by
  unfold take? at h
  split at h
  · cases h
  · cases h
    dsimp only
    omega

/-- Taking a token does not change the capacity. -/
theorem capacity_of_take? (h : gate.take? = some next) : next.capacity = gate.capacity := by
  unfold take? at h
  split at h
  · cases h
  · cases h
    rfl

/-- Taking a token is no interruption. -/
theorem interruptions_of_take? (h : gate.take? = some next) :
    next.interruptions = gate.interruptions := by
  unfold take? at h
  split at h
  · cases h
  · cases h
    rfl

/-- A token that is given back is free, unless all are. -/
theorem free_release (h : gate.free < gate.capacity) : gate.release.free = gate.free + 1 :=
  Nat.min_eq_left h

end Gate

namespace Concurrent

/-! ## What a move does -/

/-- The caller that moves, if one does. -/
def Move.caller? : Move → Option Nat
  | arrive i | reach i | receive i | timeOut i | look i | giveBack i => some i
  | interrupt => none

/-- What a caller can do at a gate: its move, where it stood and where it stands then, and the gate
that it leaves behind. -/
inductive Stride (gate : Gate) (i : Nat) : Move → Stand → Stand → Gate → Prop
  /-- It comes. -/
  | arrive : Stride gate i (.arrive i) .away (.arrived gate.interruptions) gate
  /-- It comes once more. -/
  | comeBack : Stride gate i (.arrive i) .refused (.arrived gate.interruptions) gate
  /-- It finds a token at once. -/
  | pass {seen : UInt64} {next : Gate} (h : gate.take? = some next) :
      Stride gate i (.reach i) (.arrived seen) .holding next
  /-- It finds no token. -/
  | wait {seen : UInt64} (h : gate.take? = none) :
      Stride gate i (.reach i) (.arrived seen) (.waiting seen) gate
  /-- It is given a token. -/
  | receive {seen : UInt64} {next : Gate} (h : gate.take? = some next) :
      Stride gate i (.receive i) (.waiting seen) (.served seen) next
  /-- Its time runs out. -/
  | timeOut {seen : UInt64} : Stride gate i (.timeOut i) (.waiting seen) (.roused seen) gate
  /-- Nobody was interrupted, so it goes on waiting. -/
  | goOn {seen : UInt64} (h : gate.interruptions = seen) :
      Stride gate i (.look i) (.roused seen) (.waiting seen) gate
  /-- It was interrupted without a token. -/
  | turnBack {seen : UInt64} (h : gate.interruptions ≠ seen) :
      Stride gate i (.look i) (.roused seen) .refused gate
  /-- Nobody was interrupted, so it passes. -/
  | enter {seen : UInt64} (h : gate.interruptions = seen) :
      Stride gate i (.look i) (.served seen) .holding gate
  /-- It was interrupted with a token. -/
  | giveUp {seen : UInt64} (h : gate.interruptions ≠ seen) :
      Stride gate i (.look i) (.served seen) .leaving gate
  /-- It is done. -/
  | giveBack : Stride gate i (.giveBack i) .holding .away gate.release
  /-- It gives back what it was given. -/
  | leave : Stride gate i (.giveBack i) .leaving .refused gate.release

namespace Stride

variable {gate next : Gate} {i : Nat} {move : Move} {old new : Stand}

/-- A stride is a move of its caller. -/
theorem caller?_eq (h : Stride gate i move old new next) : move.caller? = some i := by
  cases h <;> rfl

/-- No caller interrupts another. -/
theorem interruptions_eq (h : Stride gate i move old new next) :
    next.interruptions = gate.interruptions := by
  cases h with
  | pass h | receive h => exact Gate.interruptions_of_take? h
  | _ => rfl

/-- A token stays on one side or the other. -/
theorem tokens (h : Stride gate i move old new next)
    (hout : old.hasToken = true → gate.free < gate.capacity) :
    next.capacity = gate.capacity ∧
      next.free + new.hasToken.toNat = gate.free + old.hasToken.toNat := by
  cases h with
  | pass h | receive h =>
    refine ⟨Gate.capacity_of_take? h, ?_⟩
    exact Gate.free_of_take? h
  | giveBack | leave =>
    refine ⟨rfl, ?_⟩
    exact Gate.free_release (hout rfl)
  | _ => exact ⟨rfl, rfl⟩

end Stride

namespace Crowd

variable {c d : Crowd} {move : Move} {moves : List Move} {capacity : Nat}

/-- A move is an interruption, or a stride of one caller. -/
theorem stride_of_step (h : c.step move = some d) :
    (move = .interrupt ∧ d = { c with gate := c.gate.interrupt }) ∨
      ∃ i old new gate, c.callers[i]? = some old ∧ Stride c.gate i move old new gate ∧
        d = { c with gate }.place i new := by
  cases move with
  | interrupt =>
    cases h
    exact .inl ⟨rfl, rfl⟩
  | arrive i =>
    unfold step at h
    dsimp only at h
    split at h
    · cases h
      exact .inr ⟨i, _, _, _, ‹_›, .arrive, rfl⟩
    · cases h
      exact .inr ⟨i, _, _, _, ‹_›, .comeBack, rfl⟩
    · cases h
  | reach i =>
    unfold step at h
    dsimp only at h
    split at h
    · split at h
      · cases h
        exact .inr ⟨i, _, _, _, ‹_›, .pass ‹_›, rfl⟩
      · cases h
        exact .inr ⟨i, _, _, _, ‹_›, .wait ‹_›, rfl⟩
    · cases h
  | receive i =>
    unfold step at h
    dsimp only at h
    split at h
    · obtain ⟨gate, hgate, rfl⟩ := Option.map_eq_some_iff.mp h
      exact .inr ⟨i, _, _, _, ‹_›, .receive hgate, rfl⟩
    · cases h
  | timeOut i =>
    unfold step at h
    dsimp only at h
    split at h
    · cases h
      exact .inr ⟨i, _, _, _, ‹_›, .timeOut, rfl⟩
    · cases h
  | look i =>
    unfold step at h
    dsimp only at h
    split at h
    · cases h
      refine .inr ⟨i, _, _, _, ‹_›, ?_, rfl⟩
      split
      · exact .goOn ‹_›
      · exact .turnBack ‹_›
    · cases h
      refine .inr ⟨i, _, _, _, ‹_›, ?_, rfl⟩
      split
      · exact .enter ‹_›
      · exact .giveUp ‹_›
    · cases h
  | giveBack i =>
    unfold step at h
    dsimp only at h
    split at h
    · cases h
      exact .inr ⟨i, _, _, _, ‹_›, .giveBack, rfl⟩
    · cases h
      exact .inr ⟨i, _, _, _, ‹_›, .leave, rfl⟩
    · cases h

/-- Moves lead somewhere one after another. -/
theorem run_cons : c.run (move :: moves) = some d ↔
    ∃ b, c.step move = some b ∧ b.run moves = some d :=
  Option.bind_eq_some_iff

theorem run_append {behind : List Move} : c.run (moves ++ behind) = some d ↔
    ∃ b, c.run moves = some b ∧ b.run behind = some d := by
  unfold run
  rw [List.foldlM_append]
  exact Option.bind_eq_some_iff

/-- In a move, a caller stays where it stands or makes a stride. -/
theorem caller_of_step (h : c.step move = some d) (i : Nat) :
    (move.caller? ≠ some i ∧ d.callers[i]? = c.callers[i]?) ∨
      ∃ old new gate, c.callers[i]? = some old ∧ d.callers[i]? = some new ∧
        Stride c.gate i move old new gate := by
  rcases stride_of_step h with ⟨rfl, rfl⟩ | ⟨j, old, new, gate, hj, hstride, rfl⟩
  · exact .inl ⟨nofun, rfl⟩
  · by_cases hij : j = i
    · subst hij
      refine .inr ⟨old, new, gate, hj, ?_, hstride⟩
      exact List.getElem?_set_self (List.getElem?_eq_some_iff.mp hj).1
    · refine .inl ⟨?_, List.getElem?_set_ne hij⟩
      rw [hstride.caller?_eq]
      exact fun h => hij (Option.some.inj h)

/-- A caller who comes sees how many interruptions there were. -/
theorem arrived_of_step {i : Nat} (h : c.step (.arrive i) = some d) :
    d.callers[i]? = some (.arrived d.gate.interruptions) := by
  unfold step at h
  dsimp only at h
  split at h
  · cases h
    exact List.getElem?_set_self (List.getElem?_eq_some_iff.mp ‹_›).1
  · cases h
    exact List.getElem?_set_self (List.getElem?_eq_some_iff.mp ‹_›).1
  · cases h

/-- The gate counts the interruptions. -/
theorem interruptions_of_run (h : c.run moves = some d) :
    d.gate.interruptions = c.gate.interruptions + UInt64.ofNat (moves.count .interrupt) := by
  induction moves generalizing c with
  | nil =>
    cases h
    exact (UInt64.add_zero _).symm
  | cons move rest ih =>
    obtain ⟨b, hstep, hrest⟩ := run_cons.mp h
    rw [ih hrest]
    rcases stride_of_step hstep with ⟨rfl, rfl⟩ | ⟨i, old, new, gate, -, hstride, rfl⟩
    · rw [List.count_cons_self, Nat.add_comm, UInt64.ofNat_add, ← UInt64.add_assoc]
      rfl
    · have hne : move ≠ .interrupt := by
        rintro rfl
        cases hstride
      rw [List.count_cons_of_ne hne]
      change gate.interruptions + _ = _
      rw [hstride.interruptions_eq]

/-! ## Tokens -/

/-- Free tokens and those that callers have make up the capacity. -/
structure Balanced (capacity : Nat) (c : Crowd) : Prop where
  /-- The capacity does not change. -/
  capacity_eq : c.gate.capacity = capacity
  /-- No token is lost, and none is made. -/
  total : c.gate.free + c.tokens = capacity

/-- Callers at a new gate, none of whom asks for anything yet. -/
def gathered (gate : Gate) : Nat → Crowd
  | 0 => ofGate gate
  | callers + 1 => (gathered gate callers).join

/-- A caller who asks for nothing has no token. -/
theorem Balanced.join (h : c.Balanced capacity) : c.join.Balanced capacity := by
  have htokens : c.join.tokens = c.tokens := by
    rw [tokens, Crowd.join, List.countP_append]
    rfl
  exact ⟨h.capacity_eq, htokens ▸ h.total⟩

/-- A new crowd is balanced. -/
theorem balanced_gathered (interruptions : UInt64) (callers : Nat) :
    (gathered ⟨capacity, capacity, interruptions⟩ callers).Balanced capacity := by
  induction callers with
  | zero => exact ⟨rfl, rfl⟩
  | succ callers ih => exact ih.join

/-- Who stands somewhere else may have taken or given back a token. -/
theorem tokens_place {i : Nat} {old : Stand} (h : c.callers[i]? = some old) (gate : Gate)
    (new : Stand) :
    ({ c with gate }.place i new).tokens + old.hasToken.toNat = c.tokens + new.hasToken.toNat := by
  obtain ⟨hi, rfl⟩ := List.getElem?_eq_some_iff.mp h
  have hle := List.boole_getElem_le_countP (p := Stand.hasToken) hi
  have hset := List.countP_set (p := Stand.hasToken) (a := new) hi
  have htoNat (b : Bool) : (if b = true then 1 else 0) = b.toNat := by
    cases b <;> rfl
  rw [htoNat] at hle
  rw [htoNat, htoNat] at hset
  simp only [tokens, place, hset]
  omega

/-- Who has a token has it from the gate. -/
theorem Balanced.free_lt (h : c.Balanced capacity) {i : Nat} {stand : Stand}
    (hi : c.callers[i]? = some stand) (htoken : stand.hasToken = true) :
    c.gate.free < c.gate.capacity := by
  have hpos : 0 < c.tokens :=
    List.countP_pos_iff.mpr ⟨stand, List.mem_of_getElem? hi, htoken⟩
  have htotal := h.total
  rw [h.capacity_eq]
  omega

/-- A move neither loses nor makes a token. -/
theorem Balanced.step (h : c.Balanced capacity) (hstep : c.step move = some d) :
    d.Balanced capacity := by
  rcases stride_of_step hstep with ⟨-, rfl⟩ | ⟨i, old, new, gate, hi, hstride, rfl⟩
  · exact ⟨h.capacity_eq, h.total⟩
  · obtain ⟨hcapacity, hfree⟩ := hstride.tokens (h.free_lt hi)
    have htokens := tokens_place hi gate new
    have htotal := h.total
    refine ⟨hcapacity.trans h.capacity_eq, ?_⟩
    change gate.free + _ = capacity
    omega

/-- No order of moves loses or makes a token. -/
theorem Balanced.run (h : c.Balanced capacity) (hrun : c.run moves = some d) :
    d.Balanced capacity := by
  induction moves generalizing c with
  | nil =>
    cases hrun
    exact h
  | cons move rest ih =>
    obtain ⟨b, hstep, hrest⟩ := run_cons.mp hrun
    exact ih (h.step hstep) hrest

/-- What the tokens of a gate amount to. -/
structure Conserved (capacity : Nat) (c : Crowd) : Prop where
  /-- A token is free, or a caller has it. -/
  total : c.gate.free + c.tokens = capacity
  /-- There are never more callers with a token than tokens. -/
  tokens_le : c.tokens ≤ capacity
  /-- The gate knows how many callers have a token. -/
  inFlight_eq : c.gate.inFlight = c.tokens
  /-- A token that is given back finds room. -/
  room : ∀ i d, c.step (.giveBack i) = some d →
    c.gate.free < c.gate.capacity ∧ d.gate.free = c.gate.free + 1

/-- In a balanced crowd tokens are conserved. -/
theorem Balanced.conserved (h : c.Balanced capacity) : c.Conserved capacity := by
  have htotal := h.total
  refine ⟨h.total, by omega, ?_, ?_⟩
  · rw [Gate.inFlight, h.capacity_eq]
    omega
  · intro i d hstep
    rcases stride_of_step hstep with ⟨hmove, -⟩ | ⟨j, old, new, gate, hj, hstride, rfl⟩
    · cases hmove
    · cases hstride with
      | giveBack | leave =>
        have hroom : c.gate.free < c.gate.capacity := h.free_lt hj rfl
        exact ⟨hroom, Gate.free_release hroom⟩

/-! ## A caller alone -/

/-- Whoever is alone at a gate and acquires a token passes. -/
theorem run_of_acquire_ok {gate next : Gate} {operation : String}
    (h : gate.acquire operation = .ok next) :
    (gathered gate 1).run [.arrive 0, .reach 0] = some ⟨next, [.holding]⟩ := by
  cases htake : gate.take? with
  | none =>
    rw [Gate.acquire, htake] at h
    cases h
  | some taken =>
    rw [Gate.acquire, htake] at h
    cases h
    simp [Crowd.run, gathered, ofGate, Crowd.join, step, place, htake]

/-- Whoever is alone at a gate and acquires no token waits until it is interrupted. -/
theorem run_of_acquire_error {gate : Gate} {operation : String} {e : Failure}
    (h : gate.acquire operation = .error e) :
    ∃ c, (gathered gate 1).run [.arrive 0, .reach 0, .interrupt, .timeOut 0, .look 0] = some c ∧
      c.outcome? 0 operation = some (.error e) := by
  cases htake : gate.take? with
  | none =>
    rw [Gate.acquire, htake] at h
    cases h
    refine ⟨⟨gate.interrupt, [.refused]⟩, ?_, rfl⟩
    simp [Crowd.run, gathered, ofGate, Crowd.join, step, place, htake, Gate.interrupt]
  | some taken =>
    rw [Gate.acquire, htake] at h
    cases h

end Crowd

end Concurrent

end Reckoner.Service
