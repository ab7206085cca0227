import Reckoner.Proofs.Grammar.Soundness

/-!
# Depths in any order

A walk over a tree has a worklist: one of the trees that wait is visited, and the trees directly
below its root wait one level deeper. Whichever is taken each time, a walk ends after one visit for
each node, and the greatest depth that it met is the height. So the depth of a tree is its height,
and a text that is read makes no tree above the limit.
-/

namespace Reckoner.Expr

/-! ## The height from the trees below -/

/-- A root is one level above the tallest tree below it. -/
theorem height_eq_tallest_children (e : Expr) : height e = tallest (children e) + 1 := by
  cases e <;> simp only [height, children, tallest, Nat.max_zero]

/-- The tallest of some trees bounds them all. -/
theorem tallest_le_iff {as : List Expr} {n : Nat} : tallest as ≤ n ↔ ∀ a ∈ as, height a ≤ n := by
  induction as with
  | nil => simp only [tallest, Nat.zero_le, List.not_mem_nil, false_imp_iff, implies_true]
  | cons a as ih => rw [tallest, Nat.max_le, ih, List.forall_mem_cons]

theorem size_pos (e : Expr) : 0 < size e := by
  rw [size_eq_children]
  exact Nat.succ_pos _

/-- The order of the trees does not count for their nodes. -/
theorem totalSize_perm {as bs : List Expr} (h : as.Perm bs) : totalSize as = totalSize bs := by
  induction h with
  | nil => rfl
  | cons a _ ih => rw [totalSize, totalSize, ih]
  | swap a b as => simp only [totalSize, Nat.add_left_comm]
  | trans _ _ ih ih' => exact ih.trans ih'

/-! ## Walks -/

/-- A walk under way. -/
structure Walk where
  /-- The trees that wait, each with the depth of its root. -/
  waiting : List (Expr × Nat)
  /-- The greatest depth of the roots visited so far. -/
  best : Nat

namespace Walk

/-- Only the whole tree waits. -/
def start (e : Expr) : Walk := ⟨[(e, 1)], 0⟩

/-- What waits once a root at some depth is visited. -/
def below (e : Expr) (depth : Nat) : List (Expr × Nat) :=
  (children e).map fun child => (child, depth + 1)

/-- Any of the waiting trees is visited, and those below it come to wait, in any order. -/
inductive Visit : Walk → Walk → Prop where
  | visit {before behind waiting : List (Expr × Nat)} {e : Expr} {depth best : Nat}
      (h : waiting.Perm (below e depth ++ (before ++ behind))) :
      Visit ⟨before ++ (e, depth) :: behind, best⟩ ⟨waiting, max best depth⟩

/-- A number of visits, one after another. -/
inductive Visits : Nat → Walk → Walk → Prop where
  | none (w : Walk) : Visits 0 w w
  | more {n : Nat} {u v w : Walk} (h : Visit u v) (hs : Visits n v w) : Visits (n + 1) u w

variable {n : Nat} {u v w : Walk}

/-- The number of nodes that are still to be visited. -/
def left (w : Walk) : Nat := totalSize (w.waiting.map (·.1))

/-- No depth that was met or will be met is above the bound. -/
def Within (w : Walk) (n : Nat) : Prop :=
  w.best ≤ n ∧ ∀ p ∈ w.waiting, p.2 + height p.1 ≤ n + 1

/-- At the start the bound is one on the height. -/
theorem within_start {e : Expr} : (start e).Within n ↔ height e ≤ n := by
  simp only [Within, start, List.mem_singleton, forall_eq, Nat.zero_le, true_and]
  omega

/-- A tree reaches no deeper than a bound if its root and the trees below it do not. -/
theorem within_below {e : Expr} {depth : Nat} :
    depth + height e ≤ n + 1 ↔ depth ≤ n ∧ ∀ p ∈ below e depth, p.2 + height p.1 ≤ n + 1 := by
  rw [height_eq_tallest_children, below, List.forall_mem_map]
  constructor
  · intro h
    refine ⟨by omega, fun a ha => ?_⟩
    have hchild := tallest_le_iff.mp (Nat.le_refl _) a ha
    dsimp only
    omega
  · rintro ⟨hdepth, hbelow⟩
    have htallest : tallest (children e) ≤ n - depth := by
      refine tallest_le_iff.mpr fun a ha => ?_
      have hchild := hbelow a ha
      dsimp only at hchild
      omega
    omega

/-- A visit keeps every bound, and makes none. -/
theorem Visit.within_iff (h : Visit u v) : u.Within n ↔ v.Within n := by
  cases h with
  | visit hperm =>
    simp only [Within, hperm.mem_iff, List.forall_mem_append, List.forall_mem_cons, Nat.max_le]
    rw [within_below]
    exact ⟨fun ⟨hbest, hbefore, ⟨hdepth, hbelow⟩, hbehind⟩ =>
        ⟨⟨hbest, hdepth⟩, hbelow, hbefore, hbehind⟩,
      fun ⟨⟨hbest, hdepth⟩, hbelow, hbefore, hbehind⟩ =>
        ⟨hbest, hbefore, ⟨hdepth, hbelow⟩, hbehind⟩⟩

/-- A visit takes one node off. -/
theorem Visit.left_eq (h : Visit u v) : u.left = v.left + 1 := by
  cases h with
  | @visit before behind waiting e depth best hperm =>
    have hbelow : (below e depth).map (·.1) = children e := by
      simp only [below, List.map_map, Function.comp_def, List.map_id']
    simp only [left, totalSize_perm (hperm.map (·.1)), List.map_append, List.map_cons, hbelow,
      totalSize_append, totalSize, size_eq_children e]
    omega

section

variable (e : Expr) (depth : Nat) (rest : List (Expr × Nat)) (best : Nat)

/-- The first tree is taken, and those below it come to the front. -/
theorem visit_first : Visit ⟨(e, depth) :: rest, best⟩ ⟨below e depth ++ rest, max best depth⟩ :=
  @Visit.visit [] rest _ e depth best (List.Perm.refl _)

/-- The tree that came last is taken, and those below it come last. -/
theorem visit_last :
    Visit ⟨rest ++ [(e, depth)], best⟩ ⟨rest ++ below e depth, max best depth⟩ :=
  @Visit.visit rest [] _ e depth best (by rw [List.append_nil]; exact List.perm_append_comm)

end

/-- As long as a node is left, some tree can be visited. -/
theorem exists_visit (h : w.left ≠ 0) : ∃ v, Visit w v := by
  match w with
  | ⟨[], _⟩ => exact absurd rfl h
  | ⟨(e, depth) :: rest, best⟩ => exact ⟨_, visit_first e depth rest best⟩

/-- Nothing waits once no node is left. -/
theorem waiting_eq_nil (h : w.left = 0) : w.waiting = [] := by
  match w with
  | ⟨[], _⟩ => rfl
  | ⟨(e, depth) :: rest, best⟩ =>
    have := size_pos e
    simp only [left, List.map_cons, totalSize] at h
    omega

/-- Visits keep what is within a bound. -/
theorem Visits.within_iff {k : Nat} (h : Visits k u v) : u.Within n ↔ v.Within n := by
  induction h with
  | none => exact Iff.rfl
  | more h _ ih => exact h.within_iff.trans ih

/-- Each visit takes one node. -/
theorem Visits.left_eq (h : Visits n u v) : u.left = n + v.left := by
  induction h with
  | none => exact (Nat.zero_add _).symm
  | more h _ ih =>
    rw [h.left_eq, ih]
    omega

/-- Where nothing waits any more, the greatest depth met is the height. -/
theorem Visits.best_eq_height {e : Expr} (h : Visits n (start e) w) (hw : w.waiting = []) :
    w.best = height e := by
  have hbound : ∀ m, height e ≤ m ↔ w.best ≤ m := fun m => by
    rw [← within_start, h.within_iff, Within, hw]
    simp only [List.not_mem_nil, false_imp_iff, implies_true, and_true]
  exact Nat.le_antisymm ((hbound _).mp (Nat.le_refl _)) ((hbound _).mpr (Nat.le_refl _))

/-- The walk that takes the first tree each time is one of them. -/
theorem exists_visits_deepest (waiting : List (Expr × Nat)) (best : Nat) :
    ∃ n, Visits n ⟨waiting, best⟩ ⟨[], deepest waiting best⟩ := by
  fun_induction deepest waiting best with
  | case1 best => exact ⟨0, .none _⟩
  | case2 best e depth rest ih =>
    obtain ⟨n, hn⟩ := ih
    exact ⟨n + 1, .more (visit_first e depth rest best) hn⟩

end Walk

open Walk

/-- The depth that is counted level by level is the height. -/
theorem depth_eq_height (e : Expr) : depth e = height e := by
  obtain ⟨n, hn⟩ := exists_visits_deepest [(e, 1)] 0
  exact hn.best_eq_height rfl

/-- The depth of a tree is its height, which is one where nothing is below the root. It is found by
walks in any order: none has more visits than the tree has nodes, one with fewer can go on, and one
with as many has nothing left and met the height. No text is read as a tree above the limit. -/
theorem depth_of_walks (e : Expr) :
    (depth e = height e ∧ (children e = [] → height e = 1)) ∧
      (∀ n w, Visits n (start e) w → n ≤ size e ∧ (n < size e → ∃ v, Visit w v) ∧
        (n = size e → w = ⟨[], height e⟩)) ∧
      ∀ s, Grammar.parse s = .ok e → height e ≤ Grammar.maxHeight := by
  refine ⟨⟨depth_eq_height e, fun h => ?_⟩, fun n w hw => ?_, fun s hs => ?_⟩
  · rw [height_eq_tallest_children, h, tallest]
  · have hleft : size e = n + w.left := by
      rw [← hw.left_eq]
      simp only [left, start, List.map_cons, List.map_nil, totalSize, Nat.add_zero]
    refine ⟨by omega, fun hn => exists_visit (by omega), fun hn => ?_⟩
    have hnil : w.waiting = [] := waiting_eq_nil (by omega)
    rw [← hw.best_eq_height hnil, ← hnil]
  · obtain ⟨_, _, _, hdepth⟩ := Grammar.derives_of_parse hs
    rwa [depth_eq_height] at hdepth

/-- The tree that came last is visited first, so that the empty list waits until the end. -/
theorem depth_of_walks_backwards :
    (∃ w, Visits 4 (start (call "f" [list [], neg (symbol "x")])) w ∧ w = ⟨[], 3⟩) ∧
      height (list []) = 1 ∧
      ∃ e, Grammar.parse "f(\x7b\x7d,-x)" = .ok e ∧ height e ≤ Grammar.maxHeight := by
  refine ⟨?_, ?_, ?_⟩
  · have hwalk : Visits 4 (start (call "f" [list [], neg (symbol "x")])) ⟨[], 3⟩ :=
      .more (visit_last _ 1 [] 0) <| .more (visit_last _ 2 [(list [], 2)] 1) <|
        .more (visit_last _ 3 [(list [], 2)] 2) <| .more (visit_last _ 2 [] 3) <| .none _
    exact ⟨_, hwalk, ((depth_of_walks _).2.1 4 _ hwalk).2.2 rfl⟩
  · exact (depth_of_walks (list [])).1.2 rfl
  · have hok : (Grammar.parse "f(\x7b\x7d,-x)").isOk = true := by decide +kernel
    cases h : Grammar.parse "f(\x7b\x7d,-x)" with
    | error _ =>
      rw [h] at hok
      cases hok
    | ok e => exact ⟨e, rfl, (depth_of_walks e).2.2 _ h⟩

end Reckoner.Expr
