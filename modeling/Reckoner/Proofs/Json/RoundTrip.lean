import Mathlib.Tactic.SplitIfs
import Reckoner.Json.Reading

/-!
# Values read back

A value that is made of texts and truth values is read back from the line on which it is
written, whatever follows it. A string is read back character by character, since the escape of
each character is read as one part that stands for it. Arrays and objects are read back as soon
as their items are, and the levels that a value needs are fewer than its characters.
-/

namespace Reckoner.Json

open Text

/-! ## Strings -/

namespace Quoted

/-- The part stands for the character, whatever parts follow. -/
def StandsFor (p : Part) (c : Char) : Prop :=
  ∀ ps, assemble (p :: ps) = (assemble ps).map (c :: ·)

theorem standsFor_char (c : Char) : StandsFor (.char c) c := fun _ => rfl

/-- A code unit below the surrogates stands for its character. -/
theorem standsFor_unit {n : Nat} (h : n < 0xD800) : StandsFor (.unit n) (Char.ofNat n) := by
  have hhigh : isHigh n = false := by
    simp only [isHigh, Bool.and_eq_false_iff, decide_eq_false_iff_not]
    omega
  have hlow : isLow n = false := by
    simp only [isLow, Bool.and_eq_false_iff, decide_eq_false_iff_not]
    omega
  intro ps
  rcases ps with - | ⟨c | low, ps⟩
  · simp only [assemble, hhigh, hlow, Bool.or_self, Bool.false_eq_true, if_false]
  · simp only [assemble, hhigh, hlow, Bool.or_self, Bool.false_eq_true, if_false]
  · simp only [assemble, hhigh, hlow, Bool.or_self, Bool.false_and, Bool.false_eq_true, if_false]

private theorem hexValue?_hexDigit {n : Nat} (h : n < 16) : hexValue? (hexDigit n) = some n := by
  have hall : ∀ m < 16, hexValue? (hexDigit m) = some m := by decide
  exact hall n h

/-- A letter behind a backslash is read as the character that it stands for. -/
private theorem parts_letter {e c : Char} (hu : e ≠ 'u') (he : unescape? e = some c)
    (rest : List Char) :
    parts ('\\' :: e :: rest) = (parts rest).map fun q => (.char c :: q.1, q.2) := by
  rw [parts.eq_def]
  split
  · rename_i heq
    cases heq
  · rename_i heq
    cases heq
  · rename_i heq
    cases heq
    exact absurd rfl hu
  · rename_i heq
    cases heq
    simp only [he]
    cases parts rest <;> rfl
  · rename_i hne heq
    cases heq
    exact (hne e rest rfl rfl).elim

/-- A control character is read back from its code unit. -/
private theorem parts_unit {n : Nat} (h : n < 0x20) (rest : List Char) :
    parts ('\\' :: 'u' :: '0' :: '0' :: hexDigit (n / 16) :: hexDigit (n % 16) :: rest) =
      (parts rest).map fun q => (.unit n :: q.1, q.2) := by
  have hvalue : unitValue? '0' '0' (hexDigit (n / 16)) (hexDigit (n % 16)) = some n := by
    have hzero : hexValue? '0' = some 0 := rfl
    simp only [unitValue?, hzero, hexValue?_hexDigit (n := n / 16) (by omega),
      hexValue?_hexDigit (n := n % 16) (by omega), Option.bind_eq_bind, Option.bind_some,
      Option.pure_def, Option.some.injEq]
    omega
  rw [parts, hvalue]
  cases parts rest <;> rfl

/-- A character without an escape is read as it is. -/
private theorem parts_plain {c : Char} (hq : c ≠ '"') (hb : c ≠ '\\') (hc : ¬ c.toNat < 0x20)
    (rest : List Char) : parts (c :: rest) = (parts rest).map fun q => (.char c :: q.1, q.2) := by
  rw [parts.eq_def]
  split
  · rename_i heq
    cases heq
  · rename_i heq
    cases heq
    exact absurd rfl hq
  · rename_i heq
    cases heq
    exact absurd rfl hb
  · rename_i heq
    cases heq
    exact absurd rfl hb
  · rename_i heq
    cases heq
    rw [if_neg (by simp only [hb, hc, or_self, not_false_eq_true])]
    cases parts rest <;> rfl

/-- The escape of a character is read as a part that stands for it. -/
theorem exists_part (c : Char) : ∃ p, StandsFor p c ∧
    ∀ rest, parts (escape c ++ rest) = (parts rest).map fun q => (p :: q.1, q.2) := by
  unfold escape
  split_ifs with hquote hbackslash _ _ _ _ _ hcontrol
  -- each of the seven characters with a letter of its own
  iterate 7
    subst c
    exact ⟨_, standsFor_char _, parts_letter (by decide) rfl⟩
  · have hunit := standsFor_unit (n := c.toNat) (by omega)
    rw [Char.ofNat_toNat] at hunit
    exact ⟨_, hunit, parts_unit hcontrol⟩
  · exact ⟨_, standsFor_char c, parts_plain hquote hbackslash hcontrol⟩

/-- A text is read back from its escapes up to the closing quote. -/
theorem read_escaped (s rest : List Char) :
    read (s.flatMap escape ++ '"' :: rest) = some (some (String.ofList s), rest) := by
  have hparts : ∃ ps, assemble ps = some s ∧
      parts (s.flatMap escape ++ '"' :: rest) = some (ps, rest) := by
    induction s with
    | nil => exact ⟨[], rfl, rfl⟩
    | cons c s ih =>
      obtain ⟨p, hp, hread⟩ := exists_part c
      obtain ⟨ps, hps, hrest⟩ := ih
      refine ⟨p :: ps, ?_, ?_⟩
      · rw [hp, hps, Option.map_some]
      · rw [List.flatMap_cons, List.append_assoc, hread, hrest, Option.map_some]
  obtain ⟨ps, hps, hread⟩ := hparts
  simp only [read, hread, hps, Option.bind_eq_bind, Option.bind_some, Option.map_some,
    Option.pure_def]

end Quoted

/-! ## Items between commas -/

/-- A bracket that ends an array or an object. -/
def IsCloser (c : Char) : Prop := c = ']' ∨ c = '\x7d'

theorem IsCloser.isSpace_eq_false {c : Char} (h : IsCloser c) : isSpace c = false := by
  rcases h with rfl | rfl <;> decide

theorem IsCloser.ne_comma {c : Char} (h : IsCloser c) : ',' ≠ c := by
  rcases h with rfl | rfl <;> decide

/-- The text starts with a character that is no blank and does not close. -/
def OpensBefore (close : Char) (s : List Char) : Prop :=
  ∃ c rest, s = c :: rest ∧ isSpace c = false ∧ c ≠ close

section

variable {α : Type} {close : Char} {item : Reader α} {write : α → String}

theorem skipSpace_cons {c : Char} (h : isSpace c = false) (s : List Char) :
    skipSpace (c :: s) = c :: s :=
  List.dropWhile_cons_of_neg (by rw [h]; exact Bool.false_ne_true)

/-- Items that are read back one by one are read back between commas. -/
theorem itemsUpTo_intercalate (hclose : IsCloser close) (a : α) (as : List α)
    (h : ∀ b ∈ a :: as, ∀ rest, item ((write b).toList ++ rest) = some (b, rest))
    (rest : List Char) :
    itemsUpTo close item ((String.intercalate "," ((a :: as).map write)).toList ++ close :: rest) =
      some (a :: as, rest) := by
  induction as generalizing a with
  | nil =>
    rw [List.map_singleton, String.intercalate_singleton, itemsUpTo.eq_def,
      h a List.mem_cons_self]
    simp only [skipSpace_cons hclose.isSpace_eq_false, if_true]
  | cons b bs ih =>
    have hcomma : skipSpace (',' :: ((String.intercalate "," ((b :: bs).map write)).toList ++
        close :: rest)) = ',' :: ((String.intercalate "," ((b :: bs).map write)).toList ++
        close :: rest) := skipSpace_cons (by decide) _
    have htext : (String.intercalate "," ((a :: b :: bs).map write)).toList ++ close :: rest =
        (write a).toList ++ ',' :: ((String.intercalate "," ((b :: bs).map write)).toList ++
          close :: rest) := by
      simp only [List.map_cons, String.intercalate_cons_cons, String.toList_append,
        List.append_assoc]
      rfl
    have hlater := ih b fun c hc => h c (List.mem_cons_of_mem a hc)
    rw [htext, itemsUpTo.eq_def, h a List.mem_cons_self]
    simp only [hcomma, hlater, if_neg hclose.ne_comma, Option.map_some]
    rw [if_pos ⟨trivial, by simp only [List.length_append, List.length_cons]; omega⟩]

private theorem exists_intercalate_cons (s : String) (ss : List String) :
    ∃ r, (String.intercalate "," (s :: ss)).toList = s.toList ++ r := by
  cases ss with
  | nil => exact ⟨[], by rw [String.intercalate_singleton, List.append_nil]⟩
  | cons t ss =>
    rw [String.intercalate_cons_cons, String.toList_append, String.toList_append, List.append_assoc]
    exact ⟨_, rfl⟩

/-- Items that are read back one by one are read back between brackets. -/
theorem sequence_intercalate (hclose : IsCloser close) (as : List α)
    (hopens : ∀ b ∈ as, OpensBefore close (write b).toList)
    (h : ∀ b ∈ as, ∀ rest, item ((write b).toList ++ rest) = some (b, rest)) (rest : List Char) :
    sequence close item ((String.intercalate "," (as.map write)).toList ++ close :: rest) =
      some (as, rest) := by
  cases as with
  | nil =>
    have hskip : skipSpace (close :: rest) = close :: rest :=
      skipSpace_cons hclose.isSpace_eq_false rest
    simp only [sequence, List.map_nil, String.intercalate_nil, String.toList_empty,
      List.nil_append, hskip, if_true]
  | cons a as =>
    have hread := itemsUpTo_intercalate hclose a as h rest
    obtain ⟨c, cs, hc, hspace, hne⟩ := hopens a List.mem_cons_self
    obtain ⟨r, hr⟩ := exists_intercalate_cons (write a) (as.map write)
    rw [List.map_cons, hr, hc, List.append_assoc, List.cons_append] at hread ⊢
    simp only [sequence, skipSpace_cons hspace, if_neg hne, hread]

end

/-! ## Values -/

mutual

/-- The value is made of texts and truth values. -/
def isTextual : Json → Bool
  | null | boolean _ => true
  | number _ => false
  | string s => s.isSome
  | array items => allTextual items
  | object members => membersTextual members

/-- All values are made of texts and truth values. -/
def allTextual : List Json → Bool
  | [] => true
  | j :: rest => isTextual j && allTextual rest

/-- All names are texts, and all values are made of texts and truth values. -/
def membersTextual : List (Option String × Json) → Bool
  | [] => true
  | (name, j) :: rest => name.isSome && isTextual j && membersTextual rest

end

mutual

/-- The number of levels on which a value is read. -/
def levels : Json → Nat
  | null | boolean _ | number _ | string _ => 1
  | array items => levelsAll items + 1
  | object members => levelsMembers members + 1

/-- The levels of the value that has the most; zero without any. -/
def levelsAll : List Json → Nat
  | [] => 0
  | j :: rest => max (levels j) (levelsAll rest)

/-- The levels of the member that has the most; zero without any. -/
def levelsMembers : List (Option String × Json) → Nat
  | [] => 0
  | (_, j) :: rest => max (levels j) (levelsMembers rest)

end

/-- A member on one line. -/
def compactMember (m : Option String × Json) : String := quoted m.1 ++ ":" ++ compact m.2

theorem compactAll_eq_map (items : List Json) : compactAll items = items.map compact := by
  induction items with
  | nil => rfl
  | cons j rest ih => rw [compactAll, ih, List.map_cons]

theorem compactMembers_eq_map (members : List (Option String × Json)) :
    compactMembers members = members.map compactMember := by
  induction members with
  | nil => rfl
  | cons m rest ih => rw [compactMembers, ih, List.map_cons, compactMember]

theorem toList_quoted (s : String) :
    (quoted (some s)).toList = '"' :: (s.toList.flatMap Quoted.escape ++ ['"']) := by
  rw [quoted, String.toList_ofList, Option.getD_some, Quoted.encode, List.cons_append]

theorem toList_bracketed (left right : Char) {l r : String} (hl : l.toList = [left])
    (hr : r.toList = [right]) (items : List String) :
    (bracketed l r items).toList = left :: ((String.intercalate "," items).toList ++ [right]) := by
  rw [bracketed, String.toList_append, String.toList_append, hl, hr, List.append_assoc]
  rfl

theorem toList_array (items : List Json) : (compact (array items)).toList =
    '[' :: ((String.intercalate "," (items.map compact)).toList ++ [']']) := by
  rw [compact, compactAll_eq_map, toList_bracketed '[' ']' rfl rfl]

theorem toList_object (members : List (Option String × Json)) : (compact (object members)).toList =
    '\x7b' :: ((String.intercalate "," (members.map compactMember)).toList ++ ['\x7d']) := by
  rw [compact, compactMembers_eq_map, toList_bracketed '\x7b' '\x7d' rfl rfl]

theorem toList_member (s : String) (j : Json) : (compactMember (some s, j)).toList =
    '"' :: (s.toList.flatMap Quoted.escape ++ '"' :: ':' :: (compact j).toList) := by
  rw [compactMember, String.toList_append, String.toList_append, toList_quoted, List.append_assoc,
    List.cons_append, List.append_assoc]
  rfl

/-- The first character of a value is no blank and no bracket that closes. -/
theorem opensBefore_compact {close : Char} (hclose : IsCloser close) {j : Json}
    (h : isTextual j = true) : OpensBefore close (compact j).toList := by
  have hopens {c : Char} (rest : List Char) (hspace : isSpace c = false) (hs : c ≠ ']')
      (hc : c ≠ '\x7d') : OpensBefore close (c :: rest) := by
    refine ⟨c, rest, rfl, hspace, ?_⟩
    rcases hclose with rfl | rfl <;> assumption
  cases j with
  | null => exact hopens _ (by decide) (by decide) (by decide)
  | boolean b => cases b <;> exact hopens _ (by decide) (by decide) (by decide)
  | number digits => cases h
  | string s =>
    obtain ⟨s, rfl⟩ := Option.isSome_iff_exists.mp h
    rw [compact, toList_quoted]
    exact hopens _ (by decide) (by decide) (by decide)
  | array items =>
    rw [toList_array]
    exact hopens _ (by decide) (by decide) (by decide)
  | object members =>
    rw [toList_object]
    exact hopens _ (by decide) (by decide) (by decide)

/-- A member opens with a quotation mark. -/
theorem opensBefore_member {m : Option String × Json} (h : m.1.isSome = true) :
    OpensBefore '\x7d' (compactMember m).toList := by
  obtain ⟨name, j⟩ := m
  obtain ⟨s, rfl⟩ := Option.isSome_iff_exists.mp h
  rw [toList_member]
  exact ⟨'"', _, rfl, by decide, by decide⟩

/-- The value is read back in front of anything. -/
def ReadsBack (n : Nat) (j : Json) : Prop :=
  ∀ rest, value? n ((compact j).toList ++ rest) = some (j, rest)

/-- A text is read back. -/
theorem readsBack_string (n : Nat) (s : String) : ReadsBack (n + 1) (string (some s)) := by
  intro rest
  have hskip : skipSpace ('"' :: (s.toList.flatMap Quoted.escape ++ '"' :: rest)) =
      '"' :: (s.toList.flatMap Quoted.escape ++ '"' :: rest) := skipSpace_cons (by decide) _
  rw [compact, toList_quoted, List.cons_append, List.append_assoc, List.singleton_append, value?]
  simp only [hskip, Quoted.read_escaped, Option.map_some, String.ofList_toList]

/-- An array is read back if its items are, one level deeper. -/
theorem readsBack_array {n : Nat} {items : List Json} (hopens : ∀ j ∈ items, isTextual j = true)
    (h : ∀ j ∈ items, ReadsBack n j) : ReadsBack (n + 1) (array items) := by
  intro rest
  have hread := sequence_intercalate (.inl rfl) items
    (fun j hj => opensBefore_compact (.inl rfl) (hopens j hj)) h rest
  have hskip := skipSpace_cons (c := '[') (by decide)
    ((String.intercalate "," (items.map compact)).toList ++ ']' :: rest)
  rw [toList_array, List.cons_append, List.append_assoc, List.singleton_append, value?]
  simp only [hskip, hread, Option.map_some]

/-- A member is read back if its value is. -/
theorem member?_compactMember {n : Nat} {s : String} {j : Json} (h : ReadsBack n j)
    (rest : List Char) :
    member? (value? n) ((compactMember (some s, j)).toList ++ rest) = some ((some s, j), rest) := by
  have hquote := skipSpace_cons (c := '"') (by decide)
    (s.toList.flatMap Quoted.escape ++ '"' :: ':' :: ((compact j).toList ++ rest))
  have hcolon := skipSpace_cons (c := ':') (by decide) ((compact j).toList ++ rest)
  rw [toList_member, List.cons_append, List.append_assoc, List.cons_append, List.cons_append,
    member?]
  simp only [hquote, Quoted.read_escaped, Option.bind_eq_bind, Option.bind_some, hcolon, h rest,
    Option.pure_def, String.ofList_toList]

/-- An object is read back if its values are, one level deeper. -/
theorem readsBack_object {n : Nat} {members : List (Option String × Json)}
    (hnames : ∀ m ∈ members, m.1.isSome = true) (h : ∀ m ∈ members, ReadsBack n m.2) :
    ReadsBack (n + 1) (object members) := by
  intro rest
  have hitems (m : Option String × Json) (hm : m ∈ members) (rest : List Char) :
      member? (value? n) ((compactMember m).toList ++ rest) = some (m, rest) := by
    obtain ⟨name, j⟩ := m
    obtain ⟨s, rfl⟩ := Option.isSome_iff_exists.mp (hnames _ hm)
    exact member?_compactMember (h _ hm) rest
  have hread := sequence_intercalate (.inr rfl) members
    (fun m hm => opensBefore_member (hnames m hm)) hitems rest
  have hskip := skipSpace_cons (c := '\x7b') (by decide)
    ((String.intercalate "," (members.map compactMember)).toList ++ '\x7d' :: rest)
  rw [toList_object, List.cons_append, List.append_assoc, List.singleton_append, value?]
  simp only [hskip, hread, Option.map_some]

mutual

/-- A value made of texts and truth values is read back on as many levels as it has. -/
theorem readsBack_compact : ∀ {j : Json} {n : Nat}, isTextual j = true → levels j ≤ n →
    ReadsBack n j
  | .null, n + 1, _, _ => fun _ => rfl
  | .boolean true, n + 1, _, _ => fun _ => rfl
  | .boolean false, n + 1, _, _ => fun _ => rfl
  | .string (some s), n + 1, _, _ => readsBack_string n s
  | .array items, n + 1, h, hn => by
    rw [isTextual] at h
    rw [levels, Nat.add_le_add_iff_right] at hn
    have hitems := readsBack_all h hn
    exact readsBack_array (fun j hj => (hitems j hj).1) fun j hj => (hitems j hj).2
  | .object members, n + 1, h, hn => by
    rw [isTextual] at h
    rw [levels, Nat.add_le_add_iff_right] at hn
    have hmembers := readsBack_members h hn
    exact readsBack_object (fun m hm => (hmembers m hm).1) fun m hm => (hmembers m hm).2
  | .number _, _, h, _ => nomatch h
  | .string none, _, h, _ => nomatch h

/-- The items of a textual array are textual and read back. -/
theorem readsBack_all : ∀ {items : List Json} {n : Nat}, allTextual items = true →
    levelsAll items ≤ n → ∀ j ∈ items, isTextual j = true ∧ ReadsBack n j
  | [], _, _, _ => List.forall_mem_nil _
  | i :: items, n, h, hn => by
    rw [allTextual, Bool.and_eq_true] at h
    rw [levelsAll, Nat.max_le] at hn
    exact List.forall_mem_cons.mpr
      ⟨⟨h.1, readsBack_compact h.1 hn.1⟩, readsBack_all h.2 hn.2⟩

/-- The members of a textual object have names, and their values are read back. -/
theorem readsBack_members : ∀ {members : List (Option String × Json)} {n : Nat},
    membersTextual members = true → levelsMembers members ≤ n →
      ∀ m ∈ members, m.1.isSome = true ∧ ReadsBack n m.2
  | [], _, _, _ => List.forall_mem_nil _
  | (_, _) :: members, n, h, hn => by
    rw [membersTextual, Bool.and_eq_true, Bool.and_eq_true] at h
    rw [levelsMembers, Nat.max_le] at hn
    exact List.forall_mem_cons.mpr
      ⟨⟨h.1.1, readsBack_compact h.1.2 hn.1⟩, readsBack_members h.2 hn.2⟩

end

/-! ## Whole texts -/

private theorem length_le_intercalate {s : String} {ss : List String} (h : s ∈ ss) :
    s.toList.length ≤ (String.intercalate "," ss).toList.length := by
  induction ss with
  | nil => cases h
  | cons t ss ih =>
    obtain ⟨r, hr⟩ := exists_intercalate_cons t ss
    rcases List.mem_cons.mp h with rfl | hs
    · rw [hr, List.length_append]
      omega
    · have hs' := ih hs
      cases ss with
      | nil => cases hs
      | cons u ss =>
        rw [String.intercalate_cons_cons, String.toList_append, List.length_append]
        omega

mutual

/-- A value has hardly more levels than characters. -/
theorem levels_le_length : ∀ j : Json, levels j ≤ (compact j).toList.length + 1
  | .null | .boolean true | .boolean false | .number _ | .string _ => by
    simp only [levels]
    omega
  | .array items => by
    have h := levelsAll_le items fun j hj => length_le_intercalate (List.mem_map_of_mem hj)
    rw [levels, toList_array, List.length_cons, List.length_append, List.length_singleton]
    omega
  | .object members => by
    have h := levelsMembers_le members fun m hm => length_le_intercalate (List.mem_map_of_mem hm)
    rw [levels, toList_object, List.length_cons, List.length_append, List.length_singleton]
    omega

/-- If no item is longer than a bound, the levels of all keep it but for one. -/
theorem levelsAll_le {k : Nat} : ∀ items : List Json,
    (∀ j ∈ items, (compact j).toList.length ≤ k) → levelsAll items ≤ k + 1
  | [], _ => Nat.zero_le _
  | j :: items, h => by
    rw [List.forall_mem_cons] at h
    exact Nat.max_le.mpr
      ⟨Nat.le_trans (levels_le_length j) (Nat.succ_le_succ h.1), levelsAll_le items h.2⟩

/-- If no member is longer than a bound, the levels of all keep it but for one. -/
theorem levelsMembers_le {k : Nat} : ∀ members : List (Option String × Json),
    (∀ m ∈ members, (compactMember m).toList.length ≤ k) → levelsMembers members ≤ k + 1
  | [], _ => Nat.zero_le _
  | (name, j) :: members, h => by
    rw [List.forall_mem_cons] at h
    have hj := levels_le_length j
    have hlength : (compactMember (name, j)).toList.length ≤ k := h.1
    rw [compactMember, String.toList_append, String.toList_append, List.length_append] at hlength
    dsimp only at hlength
    exact Nat.max_le.mpr ⟨by omega, levelsMembers_le members h.2⟩

end

/-- A value made of texts and truth values is read back from its line. -/
theorem ofText?_compact {j : Json} (h : isTextual j = true) : ofText? (compact j) = some j := by
  have hread := readsBack_compact h (levels_le_length j) []
  rw [List.append_nil] at hread
  rw [ofText?, hread]
  rfl

end Reckoner.Json
