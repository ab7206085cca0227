import Reckoner.Proofs.Expr.Regrouping

/-!
# Hidden signs

A tree and the regrouped tree have the same text, but for one thing. A sum may start with a
negated summand. As the second operand of another sum it has no brackets, and its minus sign
comes to stand behind the plus sign: `a + (-b + c)` has the text `a+-b+c`. That is read from the
left, and the sum of `a` and `-b` is written as a difference, so the regrouped tree has the text
`a-b+c`. Likewise `a * (-b * c)` has the text `a*-b*c`, but the regrouped tree has `a*(-b)*c`.
-/

namespace Reckoner

namespace Expr

/-- The second operand has no brackets, and the minus sign in front of it comes to stand behind the
sign of the operation. -/
def hidesSign (f : Operation) (b : Expr) : Bool :=
  f.opensChain && !b.isNegative && leadsWithSign f b

mutual

/-- No sign is hidden. -/
def steady : Expr → Bool
  | exact _ | real _ | symbol _ | boolean _ => true
  | neg a => steady a
  | binary f a b => !hidesSign f b && steady a && steady b
  | compare _ a b => steady a && steady b
  | call _ as | list as => steadyAll as

/-- No sign is hidden in any of the trees. -/
def steadyAll : List Expr → Bool
  | [] => true
  | a :: as => steady a && steadyAll as

end

mutual

/-- The doubles in order of appearance. -/
def reals : Expr → List Float
  | real x => [x]
  | exact _ | symbol _ | boolean _ => []
  | neg a => reals a
  | binary _ a b | compare _ a b => reals a ++ reals b
  | call _ as | list as => realsAll as

/-- The doubles of all trees. -/
def realsAll : List Expr → List Float
  | [] => []
  | a :: as => reals a ++ realsAll as

end

variable {a b e : Expr} {f g : Operation}

/-- A sign is hidden in both of two alike trees or in none. -/
theorem Alike.hidesSign (h : Alike a b) (f : Operation) : hidesSign f a = hidesSign f b := by
  simp only [Expr.hidesSign, h.sign, h.leads]

/-! ## Steady trees keep their text -/

/-- The first operand of a sum or a product stands in brackets where it binds less tightly. -/
theorem bracketsLeft_eq (hf : f.opensChain = true) (hg : g.level = f.level) (a : Expr) :
    g.bracketsLeft a = decide (a.level < f.level) := by
  rw [← hg]
  cases g with
  | power => cases f <;> cases hf <;> cases hg
  | _ => rfl

/-- So does the second operand, if it has no minus sign. -/
theorem bracketsRight_eq (hf : f.opensChain = true) (hb : b.isNegative = false) :
    f.bracketsRight b = decide (b.level < f.level) := by
  cases f with
  | add => rfl
  | multiply =>
    rw [Operation.bracketsRight, hb, Bool.or_false]
    rfl
  | _ => cases hf

/-- A chain goes on behind an operand that it does not put into brackets. -/
theorem print_join (hb : b.Legible) (hf : f.opensChain = true)
    (hn : b.isNegative = false) (hl : leadsWithSign f b = false) :
    print none (join f a b) = grouped (a.level < f.level) (print none a) ++
      (f.sign ++ grouped (b.level < f.level) (print none b)) := by
  fun_induction join f a b with
  | case1 g b c heq ih =>
    cases hb with
    | binary hb hc =>
      rw [leadsWithSign, heq, beq_self_eq_true, Bool.true_and] at hl
      have hn : b.isNegative = false := by
        refine Bool.eq_false_iff.mpr fun h => ?_
        obtain ⟨d, rfl⟩ := hb.eq_neg h
        cases hl
      have hjoin : (join f a b).level = f.level := level_join f a b
      have hsame : (binary g b c).level = f.level := heq
      rw [print_binary hc, bracketsLeft_eq hf heq, ih hb hn hl, print_binary hc,
        bracketsLeft_eq hf heq, hjoin, hsame]
      simp only [Nat.lt_irrefl, decide_false, grouped, Bool.false_eq_true, if_false,
        String.append_assoc]
  | case2 g b c hne =>
    rw [print_binary hb, behind_eq fun _ => hn, bracketsLeft_eq hf rfl, bracketsRight_eq hf hn]
  | case3 b hne =>
    rw [print_binary hb, behind_eq fun _ => hn, bracketsLeft_eq hf rfl, bracketsRight_eq hf hn]

/-- Two operands keep their text where they are put together as that is read. -/
theorem print_fuse (hb : b.Legible) (h : hidesSign f b = false) :
    print none (fuse f a b) = print none (binary f a b) := by
  unfold fuse
  split
  · rename_i c
    cases hb with
    | neg hc =>
      rw [print_binary hc, print_binary (.neg hc)]
      rfl
  · rename_i hneg
    split
    · rename_i hf
      by_cases hn : b.isNegative = true
      · obtain ⟨c, rfl⟩ := hb.eq_neg hn
        rfl
      · rw [Bool.not_eq_true] at hn
        have hl : leadsWithSign f b = false := by
          simpa only [hidesSign, hf, hn, Bool.not_false, Bool.true_and] using h
        rw [print_join hb hf hn hl, print_binary hb, behind_eq fun _ => hn, bracketsLeft_eq hf rfl,
          bracketsRight_eq hf hn]
    · rfl

/-- Brackets do not make different texts the same. -/
theorem grouped_inj {needed : Bool} {s t : String} (h : grouped needed s = grouped needed t) :
    s = t := by
  cases needed with
  | false => exact h
  | true =>
    have hopen := (String.append_left_inj ")").mp h
    exact (String.append_right_inj "(").mp hopen

/-- Every double has a text that is its own canonical form. -/
def Settled (e : Expr) : Prop := ∀ x ∈ e.reals, print none (reread x) = Decimal.canonical x

/-- The doubles of a list are those of its trees. -/
theorem mem_realsAll {x : Float} {as : List Expr} : x ∈ realsAll as ↔ ∃ a ∈ as, x ∈ a.reals := by
  induction as with
  | nil => simp only [realsAll, List.not_mem_nil, false_and, exists_false]
  | cons a as ih => simp only [realsAll, List.mem_append, ih, List.mem_cons, exists_eq_or_imp]

/-- A list is steady if each of its trees is. -/
theorem steadyAll_eq_all (as : List Expr) : steadyAll as = as.all steady := by
  induction as with
  | nil => rfl
  | cons a as ih => rw [steadyAll, ih, List.all_cons]

/-- Behind the first operand the text stays the same if the second keeps its text. -/
theorem behind_regroup (hb : b.Legible) (h : print none b.regroup = print none b) :
    behind f b.regroup = behind f b := by
  by_cases hn : f = .add ∧ b.isNegative = true
  · obtain ⟨rfl, hn⟩ := hn
    obtain ⟨c, rfl⟩ := hb.eq_neg hn
    cases hb with
    | neg hc =>
      rw [regroup, print, print, hc.alike.level] at h
      have hc' := grouped_inj ((String.append_right_inj "-").mp h)
      rw [regroup, behind, behind, hc', hc.alike.bracketsRight]
  · have hfree : f = .add → b.isNegative = false := fun hf =>
      Bool.eq_false_iff.mpr fun hb => hn ⟨hf, hb⟩
    rw [behind_eq hfree, behind_eq fun hf => hb.alike.sign.trans (hfree hf), h,
      hb.alike.bracketsRight]

/-- Trees that keep their text when regrouped keep it in a list. -/
theorem printAll_regroup {as : List Expr}
    (h : ∀ a ∈ as, print none a.regroup = print none a) :
    printAll none (regroupAll as) = printAll none as := by
  rw [printAll_eq_map, printAll_eq_map, regroupAll_eq_map, List.map_map]
  exact List.map_congr_left h

/-- Regrouping keeps the text where no sign is hidden. -/
theorem Legible.print_regroup (h : e.Legible) (hr : e.Settled) (hs : e.steady = true) :
    print none e.regroup = print none e := by
  induction h with
  | exact | symbol | boolean => rfl
  | real => exact hr _ (List.mem_singleton_self _)
  | neg ha ih =>
    rw [Expr.regroup, print, print, ih hr hs, ha.alike.level]
  | @binary f a b ha hb iha ihb =>
    simp only [steady, Bool.and_eq_true, Bool.not_eq_true'] at hs
    have hpa := iha (fun x hx => hr x (List.mem_append_left _ hx)) hs.1.2
    have hpb := ihb (fun x hx => hr x (List.mem_append_right _ hx)) hs.2
    rw [Expr.regroup, print_fuse hb.regroup (hb.alike.hidesSign f ▸ hs.1.1),
      print_binary hb.regroup, print_binary hb, hpa, behind_regroup hb hpb, ha.alike.bracketsLeft]
  | compare ha hb iha ihb =>
    simp only [steady, Bool.and_eq_true] at hs
    have hpa := iha (fun x hx => hr x (List.mem_append_left _ hx)) hs.1
    have hpb := ihb (fun x hx => hr x (List.mem_append_right _ hx)) hs.2
    rw [Expr.regroup, print, print, hpa, hpb, ha.alike.level, hb.alike.level]
  | call _ _ ih =>
    rw [steady, steadyAll_eq_all, List.all_eq_true] at hs
    have hargs := printAll_regroup fun a ha =>
      ih a ha (fun x hx => hr x (mem_realsAll.mpr ⟨a, ha, hx⟩)) (hs a ha)
    rw [Expr.regroup, print, print, hargs]
  | list _ ih =>
    rw [steady, steadyAll_eq_all, List.all_eq_true] at hs
    have hargs := printAll_regroup fun a ha =>
      ih a ha (fun x hx => hr x (mem_realsAll.mpr ⟨a, ha, hx⟩)) (hs a ha)
    rw [Expr.regroup, print, print, hargs]

/-! ## A hidden sign changes the text -/

/-- Two for every plus sign, and one less for every opening bracket. A hidden sign of a sum uses
up a plus sign, and that of a product brings a bracket. -/
def poise (s : String) : Int := 2 * s.toList.count '+' - s.toList.count '('

theorem poise_append (s t : String) : poise (s ++ t) = poise s + poise t := by
  simp only [poise, String.toList_append, List.count_append]
  omega

/-- Brackets count one less. -/
theorem poise_grouped (needed : Bool) (s : String) :
    poise (grouped needed s) = poise s - needed.toNat := by
  cases needed with
  | false => exact (Int.sub_zero _).symm
  | true =>
    have hopen : poise "(" = -1 := by decide
    have hclose : poise ")" = 0 := by decide
    simp only [grouped, if_true, poise_append, hopen, hclose, Bool.toNat_true]
    omega

/-- Commas do not count. -/
theorem poise_intercalate (ss : List String) :
    poise (String.intercalate "," ss) = (ss.map poise).sum := by
  induction ss with
  | nil => decide
  | cons s ss ih =>
    cases ss with
    | nil => simp
    | cons t ss =>
      have hcomma : poise "," = 0 := by decide
      rw [String.intercalate_cons_cons, poise_append, poise_append, ih, hcomma]
      simp only [List.map_cons, List.sum_cons]
      omega

/-- An operand without a sign adds the sign of the operation. -/
theorem poise_binary (hb : b.Legible) (hf : f.opensChain = true) (hn : b.isNegative = false) :
    poise (print none (binary f a b)) =
      poise (grouped (a.level < f.level) (print none a)) + poise f.sign +
        poise (grouped (b.level < f.level) (print none b)) := by
  rw [print_binary hb, behind_eq fun _ => hn, bracketsLeft_eq hf rfl, bracketsRight_eq hf hn,
    poise_append, poise_append, Int.add_assoc]

/-- A negated operand is subtracted, or it stands in brackets. -/
theorem poise_binary_neg (hb : b.Legible) (hf : f.opensChain = true) :
    poise (print none (binary f a (neg b))) + 1 ≤
      poise (grouped (a.level < f.level) (print none a)) + poise f.sign +
        poise (grouped ((neg b).level < f.level) (print none (neg b))) := by
  have hplus : poise "+" = 2 := by decide
  have hminus : poise "-" = 0 := by decide
  have htimes : poise "*" = 0 := by decide
  have hlevel : (neg b).level = 3 := rfl
  have hinner := Bool.toNat_le (decide (b.level < 3))
  rw [print_binary (.neg hb), bracketsLeft_eq hf rfl, poise_append, poise_grouped (decide (_ < _)),
    poise_grouped (decide (_ < _)), hlevel]
  cases f with
  | add =>
    simp only [behind, print, poise_append, poise_grouped, Operation.sign, hplus, hminus,
      Operation.level, Nat.reduceLT, decide_false, Bool.toNat_false]
    omega
  | multiply =>
    simp only [behind, poise_append, poise_grouped, Operation.sign, htimes, Operation.bracketsRight,
      isNegative, Bool.or_true, Bool.toNat_true, Operation.level, Nat.reduceLT, decide_false,
      Bool.toNat_false]
    omega
  | _ => cases hf

/-- Where a chain with a minus sign in front goes on behind an operand, the text changes. -/
theorem poise_join (hb : b.Legible) (hf : f.opensChain = true) :
    poise (print none (join f a b)) + (leadsWithSign f b).toNat ≤
      poise (grouped (a.level < f.level) (print none a)) + poise f.sign +
        poise (grouped (b.level < f.level) (print none b)) := by
  fun_induction join f a b with
  | case1 g b c heq ih =>
    cases hb with
    | binary hb hc =>
      have hchain := ih hb
      have hjoin : (join f a b).level = f.level := level_join f a b
      have hsame : (binary g b c).level = f.level := heq
      rw [print_binary hc, bracketsLeft_eq hf heq, print_binary hc, bracketsLeft_eq hf heq, hjoin,
        hsame, leadsWithSign, heq]
      simp only [poise_append, poise_grouped, Nat.lt_irrefl, decide_false, Bool.toNat_false,
        beq_self_eq_true, Bool.true_and] at hchain ⊢
      omega
  | case2 g b c hne =>
    have hl : leadsWithSign f (binary g b c) = false := by
      rw [leadsWithSign, beq_eq_false_iff_ne.mpr hne, Bool.false_and]
    rw [poise_binary hb hf rfl, hl, Bool.toNat_false]
    omega
  | case3 b hne =>
    by_cases hn : b.isNegative = true
    · obtain ⟨c, rfl⟩ := hb.eq_neg hn
      cases hb with
      | neg hc => exact poise_binary_neg hc hf
    · rw [Bool.not_eq_true] at hn
      have hl : leadsWithSign f b = false := by
        cases b with
        | neg => cases hn
        | binary g b c => exact absurd rfl (hne g b c)
        | _ => rfl
      rw [poise_binary hb hf hn, hl, Bool.toNat_false]
      omega

/-- A sign that is hidden where two operands are put together changes the text. -/
theorem poise_fuse (hb : b.Legible) :
    poise (print none (fuse f a b)) + (hidesSign f b).toNat ≤
      poise (print none (binary f a b)) := by
  by_cases h : hidesSign f b = true
  · have hparts : (f.opensChain = true ∧ b.isNegative = false) ∧ leadsWithSign f b = true := by
      simpa only [hidesSign, Bool.and_eq_true, Bool.not_eq_true'] using h
    obtain ⟨⟨hf, hn⟩, hl⟩ := hparts
    have hjoin := poise_join (a := a) hb hf
    rw [hl] at hjoin
    rw [fuse_eq_join hf hn, h, poise_binary hb hf hn]
    exact hjoin
  · rw [Bool.not_eq_true] at h
    rw [print_fuse hb h, h, Bool.toNat_false]
    omega

/-- Regrouping lowers the count behind the first operand at least as much as in the operand. -/
theorem poise_behind_regroup {k : Nat} (hb : b.Legible)
    (h : poise (print none b.regroup) + k ≤ poise (print none b)) :
    poise (behind f b.regroup) + k ≤ poise (behind f b) := by
  by_cases hn : f = .add ∧ b.isNegative = true
  · obtain ⟨rfl, hn⟩ := hn
    obtain ⟨c, rfl⟩ := hb.eq_neg hn
    cases hb with
    | neg hc =>
      rw [regroup, print, print, hc.alike.level] at h
      rw [regroup, behind, behind, hc.alike.bracketsRight]
      simp only [poise_append, poise_grouped] at h ⊢
      omega
  · have hfree : f = .add → b.isNegative = false := fun hf =>
      Bool.eq_false_iff.mpr fun hb => hn ⟨hf, hb⟩
    rw [behind_eq hfree, behind_eq fun hf => hb.alike.sign.trans (hfree hf), hb.alike.bracketsRight]
    simp only [poise_append, poise_grouped]
    omega

private theorem toNat_not_and_le (x y : Bool) :
    (!(x && y)).toNat ≤ (!x).toNat + (!y).toNat := by
  revert x y
  decide

/-- Regrouping lowers the count of a list, the more so if a sign is hidden. -/
theorem poise_printAll_regroup {as : List Expr}
    (h : ∀ a ∈ as, poise (print none a.regroup) + (!a.steady).toNat ≤ poise (print none a)) :
    poise (String.intercalate "," (printAll none (regroupAll as))) + (!steadyAll as).toNat ≤
      poise (String.intercalate "," (printAll none as)) := by
  rw [poise_intercalate, poise_intercalate]
  induction as with
  | nil => decide
  | cons a as ih =>
    have hhead := h a List.mem_cons_self
    have htail := ih fun b hb => h b (List.mem_cons_of_mem a hb)
    have hboth := toNat_not_and_le a.steady (steadyAll as)
    simp only [regroupAll, printAll, List.map_cons, List.sum_cons, steadyAll]
    omega

/-- The text of the regrouped tree differs where a sign is hidden. -/
theorem Legible.poise_regroup (h : e.Legible) (hr : e.Settled) :
    poise (print none e.regroup) + (!e.steady).toNat ≤ poise (print none e) := by
  induction h with
  | exact | symbol | boolean => exact Int.le_of_eq (Int.add_zero _)
  | real =>
    have htext := hr _ (List.mem_singleton_self _)
    exact Int.le_of_eq ((Int.add_zero _).trans (congrArg poise htext))
  | neg ha ih =>
    have ha' := ih hr
    rw [Expr.regroup, print, print, steady, ha.alike.level]
    simp only [poise_append, poise_grouped]
    omega
  | @binary f a b ha hb iha ihb =>
    have ha' := iha fun x hx => hr x (List.mem_append_left _ hx)
    have hb' := poise_behind_regroup (f := f) hb (ihb fun x hx => hr x (List.mem_append_right _ hx))
    have hfuse := poise_fuse (f := f) (a := a.regroup) hb.regroup
    have hall := toNat_not_and_le (!hidesSign f b && a.steady) b.steady
    have hfirst := toNat_not_and_le (!hidesSign f b) a.steady
    rw [hb.alike.hidesSign, print_binary hb.regroup, ha.alike.bracketsLeft] at hfuse
    rw [Bool.not_not] at hfirst
    rw [Expr.regroup, print_binary hb, steady]
    simp only [poise_append, poise_grouped] at hfuse ⊢
    omega
  | @compare f a b ha hb iha ihb =>
    have ha' := iha fun x hx => hr x (List.mem_append_left _ hx)
    have hb' := ihb fun x hx => hr x (List.mem_append_right _ hx)
    have hboth := toNat_not_and_le a.steady b.steady
    rw [Expr.regroup, print, print, steady, ha.alike.level, hb.alike.level]
    simp only [poise_append, poise_grouped]
    omega
  | call _ _ ih =>
    have hargs := poise_printAll_regroup fun a ha =>
      ih a ha fun x hx => hr x (mem_realsAll.mpr ⟨a, ha, hx⟩)
    rw [Expr.regroup, print, print, steady]
    simp only [poise_append]
    omega
  | list _ ih =>
    have hitems := poise_printAll_regroup fun a ha =>
      ih a ha fun x hx => hr x (mem_realsAll.mpr ⟨a, ha, hx⟩)
    rw [Expr.regroup, print, print, steady]
    simp only [poise_append]
    omega

/-- Regrouping keeps the text exactly where no sign is hidden. -/
theorem Legible.print_regroup_iff (h : e.Legible) (hr : e.Settled) :
    print none e.regroup = print none e ↔ e.steady = true := by
  refine ⟨fun htext => ?_, h.print_regroup hr⟩
  have hpoise := h.poise_regroup hr
  rw [htext] at hpoise
  cases hs : e.steady with
  | true => rfl
  | false =>
    rw [hs, Bool.not_false, Bool.toNat_true] at hpoise
    omega

end Expr

end Reckoner
