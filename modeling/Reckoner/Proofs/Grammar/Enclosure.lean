import Reckoner.Proofs.Expr.Renaming
import Reckoner.Proofs.Grammar.Completeness
import Reckoner.Proofs.Grammar.Fitting
import Reckoner.Proofs.Grammar.Rebracketing

/-!
# What stands in brackets

An opening round bracket inside an expression is read together with what stands behind it up to
where it is closed: as an expression of its own, or as arguments of what stands in front of it.
Where brackets balance, none of them closes a bracket around them, so what is read is all that
stands there, and it can be read on its own.
-/

namespace Reckoner

open Reckoner.Expr

namespace Token

/-- How many brackets are open behind the token, unless it closes one that is not open. -/
def depthBehind (depth : Nat) : Token → Option Nat
  | opening _ => some (depth + 1)
  | closing _ => match depth with
    | 0 => none
    | n + 1 => some n
  | _ => some depth

/-- How many brackets are open behind the tokens, unless one is closed that is not open. -/
def unclosed (depth : Nat) (ts : List Token) : Option Nat := ts.foldlM depthBehind depth

/-- What stands behind the first bracket that closes one which is open before. -/
def behindClosing (depth : Nat) : List Token → Option (List Token)
  | [] => none
  | t :: ts => match t.depthBehind depth with
    | some n => behindClosing n ts
    | none => some ts

/-- The end of something that brackets after it could call. -/
def endsCallee : Token → Bool
  | name _ | closing .round => true
  | _ => false

/-- Tokens that close no bracket around them can be passed over. -/
theorem behindClosing_append {m n : Nat} {ts : List Token} (h : unclosed m ts = some n)
    (us : List Token) : behindClosing m (ts ++ us) = behindClosing n us := by
  induction ts generalizing m with
  | nil =>
    cases h
    rfl
  | cons t ts ih =>
    rw [unclosed, List.foldlM_cons] at h
    obtain ⟨l, hl, hts⟩ := Option.bind_eq_some_iff.mp h
    rw [List.cons_append, behindClosing, hl]
    exact ih hts

end Token

namespace Grammar

open Token

variable {φ : Phrase} {k l : Nat} {p r ts us vs : List Token}

/-! ## Balance -/

/-- What is read opens and closes its own brackets only. -/
theorem Derives.behindClosing_eq (h : Derives φ ts us) (depth : Nat) :
    behindClosing depth ts = behindClosing depth us := by
  induction h generalizing depth with
  | expression _ _ iha ihb | sum _ _ iha ihb | product _ _ iha ihb | arguments _ _ _ iha ihb
  | besideName _ _ iha ihb | besideGroup _ _ iha ihb => exact (iha depth).trans (ihb depth)
  | nextSide _ _ iha ihb | nextSummand _ _ _ iha ihb | nextFactor _ _ _ iha ihb
  | nextArgument _ _ iha ihb | raised _ _ iha ihb => exact (iha depth).trans (ihb depth)
  | call _ _ _ ihp iha => exact (ihp depth).trans (iha (depth + 1))
  | group _ ih | braces _ ih => exact ih (depth + 1)
  | minus _ ih | plus _ ih | unsigned _ _ ih | base _ _ ih | plain _ _ ih => exact ih depth
  | lastSide | lastSummand | lastFactor | lastArgument | noArguments => rfl
  | integer | decimal | boolean | name => rfl

/-- Brackets around names do not change how many are open behind them. -/
theorem Rebracketed.unclosed_eq {f : String → String} {spare : Nat} {b : Bool} {ts' : List Token}
    (h : Rebracketed f spare b ts ts') (depth : Nat) : unclosed depth ts' = unclosed depth ts := by
  induction h generalizing depth with
  | nil => rfl
  | mark _ _ ih =>
    rw [unclosed, unclosed, List.foldlM_cons, List.foldlM_cons]
    exact congrArg _ (funext ih)
  | name _ _ ih => exact ih depth
  | added _ _ _ _ ih => exact ih depth
  | removed _ _ _ ih => exact ih depth

/-! ## Other tokens behind a phrase -/

/-- Other tokens in the place of the last ones. -/
def exchangeLast (n : Nat) (r ts : List Token) : List Token := ts.take (ts.length - n) ++ r

/-- With a token more in front the same last ones are exchanged. -/
theorem exchangeLast_cons {n : Nat} {t : Token} (h : n ≤ ts.length) :
    exchangeLast n r (t :: ts) = t :: exchangeLast n r ts := by
  rw [exchangeLast, List.length_cons, Nat.succ_sub h, List.take_succ_cons]
  rfl

/-- The tokens in front of the last ones stay. -/
theorem exchangeLast_append (r ts us : List Token) :
    exchangeLast us.length r (ts ++ us) = ts ++ r := by
  rw [exchangeLast, List.length_append, Nat.add_sub_cancel, List.take_left]

theorem exchangeLast_self (r us : List Token) : exchangeLast us.length r us = r :=
  exchangeLast_append r [] us

/-- Nothing but a closing bracket comes first. -/
def Closes (r : List Token) : Prop :=
  ∀ p : Token → Bool, (∀ b, p (.closing b) = false) → headIs p r = false

/-- Where nothing follows only a bracket could. -/
theorem closes_nil : Closes [] := fun _ _ => rfl

/-- A closing bracket comes first. -/
theorem closes_closing (b : Bracket) (r : List Token) : Closes (.closing b :: r) :=
  fun _ hp => hp b

/-- What is no closing bracket does not come up in front. -/
theorem Closes.headIs_exchangeLast {n : Nat} {p : Token → Bool} (hr : Closes r)
    (hp : ∀ b, p (.closing b) = false) (h : headIs p ts = false) (hn : n ≤ ts.length) :
    headIs p (exchangeLast n r ts) = false := by
  cases ts with
  | nil =>
    rw [exchangeLast, List.take_nil, List.nil_append]
    exact hr p hp
  | cons t ts =>
    rcases Nat.lt_or_ge ts.length n with hlt | hle
    · obtain rfl : n = (t :: ts).length := Nat.le_antisymm hn hlt
      rw [exchangeLast_self]
      exact hr p hp
    · rw [exchangeLast_cons hle]
      exact h

/-- The phrase stops at its closing bracket. -/
def Phrase.isArguments : Phrase → Bool
  | .arguments .. => true
  | _ => false

/-- Tokens that a phrase leaves may be exchanged for none or for others behind a closing bracket,
unless the phrase stops at the first of them. -/
theorem Nested.exchangeLast {n : Nat} (h : Nested k φ ts us) (hr : Closes r) (hn : n ≤ us.length)
    (hφ : φ.isArguments = true → n < us.length) :
    Nested k φ (exchangeLast n r ts) (exchangeLast n r us) := by
  -- a token that was read stands in front of those that are left, so it stays
  have hcons {t : Token} {ts : List Token} (hn : n ≤ ts.length) := exchangeLast_cons (r := r)
    (t := t) hn
  induction h with
  | expression _ hc iha ihc =>
    exact .expression (iha (hn.trans hc.derives.length_le.1) nofun) (ihc hn nofun)
  | sum _ hc iha ihc =>
    exact .sum (iha (hn.trans hc.derives.length_le.1) nofun) (ihc hn nofun)
  | product _ hc iha ihc =>
    exact .product (iha (hn.trans hc.derives.length_le.1) nofun) (ihc hn nofun)
  | lastSide h => exact .lastSide (hr.headIs_exchangeLast (fun _ => rfl) h hn)
  | lastSummand h => exact .lastSummand (hr.headIs_exchangeLast (fun _ => rfl) h hn)
  | lastFactor h => exact .lastFactor (hr.headIs_exchangeLast (fun _ => rfl) h hn)
  | lastArgument h => exact .lastArgument (hr.headIs_exchangeLast (fun _ => rfl) h hn)
  | nextSide hb hc ihb ihc =>
    have hus := hn.trans hc.derives.length_le.1
    rw [hcons (hus.trans hb.derives.length_le.1)]
    exact .nextSide (ihb hus nofun) (ihc hn nofun)
  | nextSummand hf hb hc ihb ihc =>
    have hus := hn.trans hc.derives.length_le.1
    rw [hcons (hus.trans hb.derives.length_le.1)]
    exact .nextSummand hf (ihb hus nofun) (ihc hn nofun)
  | nextFactor hf hb hc ihb ihc =>
    have hus := hn.trans hc.derives.length_le.1
    rw [hcons (hus.trans hb.derives.length_le.1)]
    exact .nextFactor hf (ihb hus nofun) (ihc hn nofun)
  | nextArgument hb hc ihb ihc =>
    have hus := hn.trans hc.derives.length_le.1
    rw [hcons (hus.trans hb.derives.length_le.1)]
    exact .nextArgument (ihb hus nofun) (ihc hn nofun)
  | besideName hb hc ihb ihc =>
    have hus := hn.trans hc.derives.length_le.1
    have hb' := ihb hus nofun
    rw [hcons (hus.trans (Nat.le_of_lt_succ (hb.derives.length_lt rfl)))] at hb' ⊢
    exact .besideName hb' (ihc hn nofun)
  | besideGroup hb hc ihb ihc =>
    have hus := hn.trans hc.derives.length_le.1
    have hb' := ihb hus nofun
    rw [hcons (hus.trans (Nat.le_of_lt_succ (hb.derives.length_lt rfl)))] at hb' ⊢
    exact .besideGroup hb' (ihc hn nofun)
  | minus h ih =>
    rw [hcons (hn.trans h.derives.length_le.1)]
    exact .minus (ih hn nofun)
  | plus h ih =>
    rw [hcons (hn.trans h.derives.length_le.1)]
    exact .plus (ih hn nofun)
  | unsigned hs h ih =>
    exact .unsigned (hr.headIs_exchangeLast (fun _ => rfl) hs
      (hn.trans h.derives.length_le.1)) (ih hn nofun)
  | base hp _ ih => exact .base (hr.headIs_exchangeLast (fun _ => rfl) hp hn) (ih hn nofun)
  | raised _ hb iha ihb =>
    have hus := hn.trans hb.derives.length_le.1
    have ha' := iha (Nat.le_succ_of_le hus) nofun
    rw [hcons hus] at ha'
    exact .raised ha' (ihb hn nofun)
  | plain _ hfree ih =>
    exact .plain (ih hn nofun) fun hs => hr.headIs_exchangeLast (fun _ => rfl) (hfree hs) hn
  | call hb _ ha ihp iha =>
    have hus := (Nat.le_succ_of_le hn).trans ha.derives.length_le.1
    have hp' := ihp (Nat.le_succ_of_le hus) nofun
    have ha' := iha (Nat.le_succ_of_le hn) fun _ => Nat.lt_succ_of_le hn
    rw [hcons hus] at hp'
    rw [hcons hn] at ha'
    exact .call hb hp' ha'
  | integer => rw [hcons hn]; exact .integer
  | decimal => rw [hcons hn]; exact .decimal
  | boolean => rw [hcons hn]; exact .boolean
  | name => rw [hcons hn]; exact .name
  | group h ih =>
    have h' := ih (Nat.le_succ_of_le hn) nofun
    rw [hcons hn] at h'
    rw [hcons ((Nat.le_succ_of_le hn).trans h.derives.length_le.1)]
    exact .group h'
  | braces h ih =>
    have h' := ih (Nat.le_succ_of_le hn) fun _ => Nat.lt_succ_of_le hn
    rw [hcons hn] at h'
    rw [hcons ((Nat.le_succ_of_le hn).trans h.derives.length_le.1)]
    exact .braces h'
  | noArguments =>
    rw [hcons (Nat.le_of_lt_succ (hφ rfl))]
    exact .noArguments
  | arguments _ he hs ihe ihs =>
    have he' := ihe (hn.trans hs.derives.length_le.1) nofun
    exact .arguments (he'.derives.no_closing _) he' (ihs hn nofun)

/-- Arguments can stand in brackets of another shape, behind which other tokens follow. -/
theorem Nested.arguments_exchangeLast {b : Bracket} {es : List Expr}
    (h : Nested k (.arguments b es) ts (.closing b :: us)) (b' : Bracket) (vs : List Token) :
    Nested k (.arguments b' es)
      (Grammar.exchangeLast (us.length + 1) (.closing b' :: vs) ts) (.closing b' :: vs) := by
  have hself : Grammar.exchangeLast (us.length + 1) (.closing b' :: vs) (.closing b :: us) =
      .closing b' :: vs := exchangeLast_self _ (.closing b :: us)
  have hr := closes_closing b' vs
  generalize hleft : Token.closing b :: us = left at h hself
  have hlength : us.length + 1 = left.length := by rw [← hleft, List.length_cons]
  cases h with
  | noArguments =>
    rw [hself]
    exact .noArguments
  | arguments _ he hs =>
    have he' := he.exchangeLast hr (hlength.trans_le hs.derives.length_le.1) nofun
    have hs' := hs.exchangeLast hr hlength.le nofun
    rw [hself] at hs'
    exact .arguments (he'.derives.no_closing b') he' hs'

/-! ## Heights -/

/-- The height of what is read. -/
def Phrase.height : Phrase → Nat
  | .expression e | .sides _ e | .sum e | .summands _ e | .product e | .factors _ e | .unary e
  | .power e | .application e | .primary e => e.height
  | .arguments _ es | .moreArguments _ es => tallest es

/-- The height of what a chain continues. -/
def Phrase.heightBefore : Phrase → Nat
  | .sides a _ | .summands a _ | .factors a _ => a.height
  | .moreArguments sofar _ => tallest sofar
  | _ => 0

/-- The last tree counts like any other. -/
theorem tallest_concat (es : List Expr) (e : Expr) :
    tallest (es ++ [e]) = max (tallest es) e.height := by
  induction es with
  | nil => simp only [List.nil_append, tallest, Nat.max_comm]
  | cons a as ih => simp only [List.cons_append, tallest, ih, Nat.max_assoc]

/-- A chain grows on what it continues. -/
theorem Derives.heightBefore_le (h : Derives φ ts us) : φ.heightBefore ≤ φ.height := by
  induction h with
  | lastSide | lastSummand | lastFactor | lastArgument => exact Nat.le_refl _
  | nextSide _ _ _ ih | nextSummand _ _ _ _ ih | nextFactor _ _ _ _ ih | besideName _ _ _ ih
  | besideGroup _ _ _ ih =>
    simp only [Phrase.heightBefore, Phrase.height, height] at ih ⊢
    omega
  | nextArgument _ _ _ ih =>
    simp only [Phrase.heightBefore, Phrase.height, tallest_concat] at ih ⊢
    omega
  | _ => exact Nat.zero_le _

/-! ## Brackets inside a phrase -/

/-- What stands behind an opening round bracket is read on fewer levels, as an expression that is no
higher or as arguments that are lower. -/
inductive Enclosed (k height : Nat) (ts r : List Token) : Prop
  | group {j e us} : j < k → e.height ≤ height →
    Nested j (.expression e) r (.closing .round :: us) → Enclosed k height ts r
  | arguments {j es us t} : j ≤ k → tallest es < height →
    Nested j (.arguments .round es) r (.closing .round :: us) → t.endsCallee = true →
      t :: .opening .round :: r <:+ ts → Enclosed k height ts r

variable {m n height : Nat}

/-- What is enclosed in fewer tokens, levels and height is so in more. -/
theorem Enclosed.mono (h : Enclosed k m ts r) (hk : k ≤ l) (hm : m ≤ n) (hts : ts <:+ us) :
    Enclosed l n us r := by
  cases h with
  | group hj he h => exact .group (hj.trans_le hk) (he.trans hm) h
  | arguments hj hes h ht hsuffix =>
    exact .arguments (hj.trans hk) (hes.trans_le hm) h ht (hsuffix.trans hts)

/-- The bracket stands before some of the last tokens, or among them. -/
theorem before_or_among {t : Token} (h : t :: r <:+ ts) (hus : us <:+ ts) :
    us.length ≤ r.length ∨ t :: r <:+ us := by
  rcases Nat.lt_or_ge r.length us.length with hlt | hle
  · exact .inr (List.suffix_of_suffix_length_le h hus hlt)
  · exact .inl hle

/-- The bracket is none of the other tokens. -/
theorem among_rest {t u : Token} (h : t :: r <:+ u :: us) (ht : u ≠ t) : t :: r <:+ us := by
  rcases List.suffix_cons_iff.mp h with heq | h
  · exact absurd (List.cons.inj heq).1.symm ht
  · exact h

/-- Of two parts one has the bracket. -/
theorem Enclosed.of_parts (h : .opening .round :: r <:+ ts) (hus : us <:+ ts)
    (ha : us.length ≤ r.length → Enclosed k m ts r)
    (hb : .opening .round :: r <:+ us → Enclosed l n us r) (hm : m ≤ height) (hn : n ≤ height) :
    Enclosed (max k l) height ts r := by
  rcases before_or_among h hus with hle | h
  · exact (ha hle).mono (Nat.le_max_left k l) hm List.suffix_rfl
  · exact (hb h).mono (Nat.le_max_right k l) hn hus

/-- A closing bracket in front of what is left stands behind the opening one as well. -/
theorem length_closing_le {b : Bracket} (h : .opening .round :: r <:+ ts)
    (hus : .closing b :: us <:+ ts) (hle : us.length ≤ r.length) :
    (Token.closing b :: us).length ≤ r.length := by
  rcases before_or_among h hus with hle' | h'
  · exact hle'
  · have hlength := (among_rest h' nofun).length_le
    rw [List.length_cons] at hlength
    omega

/-- In front of what a symbol leaves stands its name or a closing bracket. -/
theorem Derives.exists_callee {s : String} (h : Derives (.primary (.symbol s)) ts us) :
    ∃ t : Token, t.endsCallee = true ∧ t :: us <:+ ts := by
  generalize hφ : Phrase.primary (.symbol s) = φ at h
  cases h with
  | name => exact ⟨_, rfl, List.suffix_rfl⟩
  | group h => exact ⟨.closing .round, rfl, h.suffix.trans (List.suffix_cons _ _)⟩
  | _ => cases hφ

/-- An opening round bracket among what is read is the start of an expression in brackets or of
arguments. -/
theorem Nested.enclosed (h : Nested k φ ts us) (hr : .opening .round :: r <:+ ts)
    (hle : us.length ≤ r.length) : Enclosed k φ.height ts r := by
  have hnone {ts us : List Token} (hr : .opening .round :: r <:+ ts) (hts : ts = us)
      (hle : us.length ≤ r.length) : False := by
    have hlength := hr.length_le
    rw [List.length_cons, hts] at hlength
    omega
  induction h with
  | expression ha hc iha ihc | sum ha hc iha ihc | product ha hc iha ihc =>
    exact .of_parts hr ha.derives.suffix (iha hr) (fun hr => ihc hr hle)
      hc.derives.heightBefore_le (Nat.le_refl _)
  | arguments _ he hs ihe ihs =>
    refine .of_parts hr he.derives.suffix (fun hus => (ihe hr hus).mono (Nat.le_succ _)
      (Nat.le_refl _) List.suffix_rfl) (fun hr => ihs hr hle) ?_ (Nat.le_refl _)
    have hgrows := hs.derives.heightBefore_le
    simp only [Phrase.heightBefore, tallest] at hgrows
    exact (Nat.le_max_left _ _).trans hgrows
  | lastSide | lastSummand | lastFactor | lastArgument | noArguments =>
    exact (hnone hr rfl hle).elim
  | nextSide hb hc ihb ihc | nextSummand _ hb hc ihb ihc | nextFactor _ hb hc ihb ihc =>
    have hr' := among_rest hr nofun
    have hgrows := hc.derives.heightBefore_le
    simp only [Phrase.heightBefore, Expr.height] at hgrows
    exact (Enclosed.of_parts hr' hb.derives.suffix (ihb hr') (fun hr => ihc hr hle)
      (by simp only [Phrase.height] at hgrows ⊢; omega) (Nat.le_refl _)).mono (Nat.le_refl _)
        (Nat.le_refl _) (List.suffix_cons _ _)
  | nextArgument hb hc ihb ihc =>
    have hr' := among_rest hr nofun
    have hgrows := hc.derives.heightBefore_le
    rw [Phrase.heightBefore, tallest_concat] at hgrows
    exact (Enclosed.of_parts hr' hb.derives.suffix (fun hus => (ihb hr' hus).mono (Nat.le_succ _)
      ((Nat.le_max_right _ _).trans hgrows) List.suffix_rfl) (fun hr => ihc hr hle)
        (Nat.le_refl _) (Nat.le_refl _)).mono (Nat.le_refl _) (Nat.le_refl _)
          (List.suffix_cons _ _)
  | besideName hb hc ihb ihc | besideGroup hb hc ihb ihc =>
    have hgrows := hc.derives.heightBefore_le
    simp only [Phrase.heightBefore, Expr.height] at hgrows
    exact .of_parts hr hb.derives.suffix (ihb hr) (fun hr => ihc hr hle)
      (by simp only [Phrase.height] at hgrows ⊢; omega) (Nat.le_refl _)
  | minus _ ih =>
    exact (ih (among_rest hr nofun) hle).mono (Nat.le_succ _) (Nat.le_succ _)
      (List.suffix_cons _ _)
  | plus _ ih =>
    exact (ih (among_rest hr nofun) hle).mono (Nat.le_succ _) (Nat.le_refl _)
      (List.suffix_cons _ _)
  | unsigned _ _ ih | base _ _ ih | plain _ _ ih => exact ih hr hle
  | raised ha hb iha ihb =>
    refine .of_parts hr ha.derives.suffix (iha hr) (fun hr => ?_)
      (Nat.le_succ_of_le (Nat.le_max_left _ _)) (Nat.le_succ_of_le (Nat.le_max_right _ _))
    exact (ihb (among_rest hr nofun) hle).mono (Nat.le_succ _) (Nat.le_refl _)
      (List.suffix_cons _ _)
  | call hb hp ha ihp iha =>
    rcases before_or_among hr hp.derives.suffix with hus | hr'
    · exact (ihp hr hus).mono (Nat.le_max_left _ _) (Nat.succ_le_succ (Nat.zero_le _))
        List.suffix_rfl
    · rcases List.suffix_cons_iff.mp hr' with heq | hr'
      · obtain ⟨hround, rfl⟩ := List.cons.inj heq
        cases hround
        obtain ⟨t, ht, hsuffix⟩ := hp.derives.exists_callee
        exact .arguments (Nat.le_max_right _ _) (Nat.lt_succ_self _) ha ht hsuffix
      · have hle' := length_closing_le hr' ha.derives.suffix hle
        exact (iha hr' hle').mono (Nat.le_max_right _ _) (Nat.le_succ _)
          ((List.suffix_cons _ _).trans hp.derives.suffix)
  | group h ih =>
    rcases List.suffix_cons_iff.mp hr with heq | hr'
    · obtain ⟨-, rfl⟩ := List.cons.inj heq
      exact .group (Nat.lt_succ_self _) (Nat.le_refl _) h
    · exact (ih hr' (length_closing_le hr' h.derives.suffix hle)).mono (Nat.le_succ _)
        (Nat.le_refl _) (List.suffix_cons _ _)
  | braces h ih =>
    have hr' := among_rest hr nofun
    exact (ih hr' (length_closing_le hr' h.derives.suffix hle)).mono (Nat.le_refl _)
      (Nat.le_succ _) (List.suffix_cons _ _)
  | integer | decimal | boolean | name =>
    exact (hnone (among_rest hr nofun) rfl hle).elim

/-! ## Balanced brackets -/

/-- An operand that is followed by nothing is an expression. -/
theorem Nested.expression_of_primary {e : Expr} (h : Nested k (.primary e) ts [])
    (hs : headIs Token.isSummandSign ts = false) : Nested k (.expression e) ts [] := by
  have hunary := Nested.unsigned hs (.base rfl (.plain h fun _ => rfl))
  exact (Nested.expression (.sum (.product hunary (.lastFactor rfl)) (.lastSummand rfl))
    (.lastSide rfl)).of_eq (by simp only [Nat.max_zero])

/-- Behind balanced brackets the next closing one is where reading stops. -/
theorem Nested.eq_of_balanced (h : Nested k φ (ts ++ .closing .round :: us)
    (.closing .round :: vs)) (hts : unclosed 0 ts = some 0) : vs = us := by
  have heq := h.derives.behindClosing_eq 0
  rw [behindClosing_append hts] at heq
  exact (Option.some.inj heq).symm

/-- Tokens in round brackets, with balanced brackets among them, are an expression of their own, or
arguments behind something that can be called; then they are arguments in curly brackets as well. -/
theorem Nested.of_balanced {e : Expr} (hts : unclosed 0 ts = some 0)
    (h : Nested k (.expression e) (p ++ .opening .round :: (ts ++ .closing .round :: us)) []) :
    (∃ j a, j < k ∧ a.height ≤ e.height ∧ Nested j (.expression a) ts []) ∨
      (∃ q t, p = q ++ [t] ∧ t.endsCallee = true) ∧ ∃ j a, j ≤ k ∧ a.height ≤ e.height ∧
        Nested j (.expression a) (.opening .curly :: (ts ++ [.closing .curly])) [] := by
  cases h.enclosed (List.suffix_append _ _) (Nat.zero_le _) with
  | @group j a vs hj ha hn =>
    obtain rfl := hn.eq_of_balanced hts
    have hcut := hn.exchangeLast closes_nil (Nat.le_refl _) nofun
    rw [exchangeLast_append, exchangeLast_self, List.append_nil] at hcut
    exact .inl ⟨j, a, hj, ha, hcut⟩
  | @arguments j es vs t hj hes hn ht hsuffix =>
    obtain rfl := hn.eq_of_balanced hts
    have hcut := hn.arguments_exchangeLast .curly []
    have happend := exchangeLast_append [.closing .curly] ts (.closing .round :: vs)
    rw [List.length_cons] at happend
    rw [happend] at hcut
    obtain ⟨q, hq⟩ := hsuffix
    have hlist := (Nested.braces hcut).expression_of_primary rfl
    refine .inr ⟨⟨q, t, ?_, ht⟩, j, .list es, hj, hes, hlist⟩
    have hp : p ++ .opening .round :: (ts ++ .closing .round :: vs) =
        (q ++ [t]) ++ .opening .round :: (ts ++ .closing .round :: vs) := by
      rw [← hq, List.append_assoc, List.singleton_append]
    exact List.append_cancel_right hp

end Grammar

end Reckoner
