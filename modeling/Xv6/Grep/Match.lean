import Xv6.Lib.CString

/-!
# The matcher of grep

`match`, `matchhere` and `matchstar` of `user/grep.c`, and the language of a pattern.

`Pattern.read` reads a pattern from left to right: a leading `^`, then items, each of them one
character or a character with a `*` after it, and a `$` at the very end.  `Pattern.Matches` says
what a pattern means, in terms of the languages of its items: some part of the text, from its start
for a `^` and to its end for a `$`, is a word of the product of these languages.
-/

namespace Xv6.Grep

open List

open scoped Computability

mutual

/-- `matchhere`: search for `re` at the beginning of `text`. -/
def matchhere (re text : CString) : Bool :=
  if re.get 0 = 0 then true
  else if re.get 1 = chr '*' then matchstar (re.get 0) (re.skip 2) text
  else if re.get 0 = chr '$' ∧ re.get 1 = 0 then text.get 0 = 0
  else if text.get 0 ≠ 0 ∧ (re.get 0 = chr '.' ∨ re.get 0 = text.get 0) then
    matchhere (re.skip 1) (text.skip 1)
  else false
  termination_by (re.length, text.length, 0)
  decreasing_by
    all_goals exact Prod.Lex.left _ _ (CString.length_skip_lt ‹¬re.get 0 = 0› (by decide))

/-- `matchstar`: search for `c*re` at the beginning of `text`. -/
def matchstar (c : Byte) (re text : CString) : Bool :=
  if matchhere re text then true  -- a `*` matches zero or more instances
  else if text.get 0 ≠ 0 ∧ (text.get 0 = c ∨ c = chr '.') then
    matchstar c re (text.skip 1)
  else false
  termination_by (re.length, text.length, 1)
  decreasing_by
    · exact Prod.Lex.right _ (Prod.Lex.right _ Nat.one_pos)
    · rename_i htext
      exact Prod.Lex.right _ (Prod.Lex.left _ _ (CString.length_skip_lt htext.1 Nat.one_pos))

end

/-- The loop of `match`, which looks at every suffix of `text`, the empty one included. -/
def matchLoop (re text : CString) : Bool :=
  if matchhere re text then true
  else if text.get 0 ≠ 0 then matchLoop re (text.skip 1)
  else false
  termination_by text.length
  decreasing_by exact CString.length_skip_lt ‹text.get 0 ≠ 0› Nat.one_pos

/-- `match`. -/
def matchRe (re text : CString) : Bool :=
  if re.get 0 = chr '^' then matchhere (re.skip 1) text else matchLoop re text

/-! ## The language of a pattern -/

/-- The characters that a character of a pattern stands for. -/
def Admits (c b : Byte) : Prop := c = chr '.' ∨ c = b

def single (c : Byte) : Language Byte := {w | ∃ b, Admits c b ∧ w = [b]}

inductive Item
  | one (c : Byte)
  | many (c : Byte)  -- with a `*` after it

def Item.lang : Item → Language Byte
  | .one c => single c
  | .many c => (single c)∗

structure Pattern where
  start : Bool  -- a leading `^`
  items : List Item
  stop : Bool  -- a `$` at the end

/-- The items of a pattern after a leading `^`, and whether a `$` ends it. -/
def readItems : List Byte → List Item × Bool
  | [] => ([], false)
  | [c] => if c = chr '$' then ([], true) else ([.one c], false)
  | c :: d :: re =>
    if d = chr '*' then (.many c :: (readItems re).1, (readItems re).2)
    else (.one c :: (readItems (d :: re)).1, (readItems (d :: re)).2)

namespace Pattern

def read (re : CString) : Pattern :=
  if re.get 0 = chr '^' then
    ⟨true, (readItems (re.skip 1).chars).1, (readItems (re.skip 1).chars).2⟩
  else ⟨false, (readItems re.chars).1, (readItems re.chars).2⟩

def lang (p : Pattern) : Language Byte := (p.items.map Item.lang).prod

/-- The text has a part in the language of the pattern. -/
def Matches (p : Pattern) (text : List Byte) : Prop :=
  ∃ before w after, text = before ++ w ++ after ∧ w ∈ p.lang ∧
    (p.start = true → before = []) ∧ (p.stop = true → after = [])

end Pattern

/-! ## Matches at the beginning -/

/-- The text begins with a word of the items. -/
def Begins (items : List Item) (stop : Bool) (text : List Byte) : Prop :=
  ∃ w after, text = w ++ after ∧ w ∈ (items.map Item.lang).prod ∧ (stop = true → after = [])

variable {c : Byte} {items : List Item} {stop : Bool} {text : List Byte}

lemma mem_star_single {w : List Byte} : w ∈ (single c)∗ ↔ ∀ b ∈ w, Admits c b := by
  constructor
  · rintro ⟨ws, rfl, hws⟩ b hb
    obtain ⟨u, hu, hbu⟩ := mem_flatten.mp hb
    obtain ⟨b', hadm, rfl⟩ := hws u hu
    rwa [mem_singleton.mp hbu]
  · intro h
    refine ⟨w.map List.singleton, ?_, fun u hu => ?_⟩
    · rw [← flatMap_def]
      exact (flatMap_singleton' w).symm
    obtain ⟨b, hb, rfl⟩ := mem_map.mp hu
    exact ⟨b, h b hb, rfl⟩

lemma begins_nil : Begins [] stop text ↔ (stop = true → text = []) := by
  constructor
  · rintro ⟨w, after, rfl, hw, hstop⟩ h
    rw [map_nil, prod_nil, Language.mem_one] at hw
    rw [hw, hstop h, append_nil]
  · exact fun h => ⟨[], text, rfl, Language.nil_mem_one, h⟩

lemma begins_cons {i : Item} : Begins (i :: items) stop text ↔
    ∃ u t, text = u ++ t ∧ u ∈ i.lang ∧ Begins items stop t := by
  constructor
  · rintro ⟨w, after, rfl, hw, hstop⟩
    rw [map_cons, prod_cons, Language.mem_mul] at hw
    obtain ⟨u, hu, v, hv, rfl⟩ := hw
    exact ⟨u, v ++ after, append_assoc u v after, hu, v, after, rfl, hv, hstop⟩
  · rintro ⟨u, t, rfl, hu, w, after, rfl, hw, hstop⟩
    refine ⟨u ++ w, after, (append_assoc u w after).symm, ?_, hstop⟩
    rw [map_cons, prod_cons]
    exact Language.append_mem_mul hu hw

lemma begins_one : Begins (.one c :: items) stop text ↔
    ∃ b t, text = b :: t ∧ Admits c b ∧ Begins items stop t := by
  rw [begins_cons]
  constructor
  · rintro ⟨u, t, rfl, ⟨b, hadm, rfl⟩, ht⟩
    exact ⟨b, t, rfl, hadm, ht⟩
  · rintro ⟨b, t, rfl, hadm, ht⟩
    exact ⟨[b], t, rfl, ⟨b, hadm, rfl⟩, ht⟩

lemma begins_many_nil : Begins (.many c :: items) stop [] ↔ Begins items stop [] := by
  rw [begins_cons]
  constructor
  · rintro ⟨u, t, h, -, ht⟩
    rwa [(append_eq_nil_iff.mp h.symm).2] at ht
  · exact fun h => ⟨[], [], rfl, Language.nil_mem_kstar _, h⟩

/-- The repetitions stop here, or go on with the first character. -/
lemma begins_many_cons {b : Byte} : Begins (.many c :: items) stop (b :: text) ↔
    Begins items stop (b :: text) ∨ Admits c b ∧ Begins (.many c :: items) stop text := by
  simp only [begins_cons, Item.lang, mem_star_single]
  constructor
  · rintro ⟨u, t, htext, hu, ht⟩
    cases u with
    | nil => exact Or.inl (htext ▸ ht)
    | cons b' u =>
      obtain ⟨rfl, rfl⟩ := List.cons.inj htext
      rw [forall_mem_cons] at hu
      exact Or.inr ⟨hu.1, u, t, rfl, hu.2, ht⟩
  · rintro (h | ⟨hadm, u, t, rfl, hu, ht⟩)
    · exact ⟨[], b :: text, rfl, fun _ h => absurd h not_mem_nil, h⟩
    · exact ⟨b :: u, t, rfl, forall_mem_cons.mpr ⟨hadm, hu⟩, ht⟩

/-! ## The matcher -/

/-- One round of a `do` loop that returns 1 if its body finds something. -/
lemma ite_true_iff {p : Prop} [Decidable p] {x y : Bool} :
    (if x = true then true else if p then y else false) = true ↔ x = true ∨ p ∧ y = true := by
  cases x
  · by_cases hp : p <;> simp [hp]
  · simp

lemma matchstar_iff {re : CString} (hre : ∀ t, matchhere re t = true ↔ Begins items stop t.chars)
    (c : Byte) (t : CString) :
    matchstar c re t = true ↔ Begins (.many c :: items) stop t.chars := by
  induction t using CString.cons_induction with
  | nil =>
    rw [matchstar, ite_true_iff, hre, CString.chars_nil, begins_many_nil]
    exact or_iff_left fun h => h.1.1 rfl
  | cons b t hb ih =>
    rw [matchstar, ite_true_iff, hre, CString.chars_cons, begins_many_cons]
    refine or_congr_right (and_congr ?_ ih)
    rw [CString.get_cons_zero, Admits]
    exact ⟨fun h => h.2.symm.imp_right Eq.symm, fun h => ⟨hb, h.symm.imp_left Eq.symm⟩⟩

/-- One character of the pattern against the first one of the text. -/
lemma char_iff {re t : CString} {c : Byte}
    (hre : ∀ t, matchhere re t = true ↔ Begins items stop t.chars) :
    (if t.get 0 ≠ 0 ∧ (c = chr '.' ∨ c = t.get 0) then matchhere re (t.skip 1) else false) = true ↔
      Begins (.one c :: items) stop t.chars := by
  rw [begins_one]
  induction t using CString.cons_induction with
  | nil =>
    rw [if_neg fun h => h.1 rfl]
    simp
  | cons b t hb _ =>
    rw [CString.get_cons_zero, CString.chars_cons, CString.skip_cons_succ, CString.skip_zero]
    constructor
    · intro h
      split_ifs at h with hc
      exact ⟨b, t.chars, rfl, hc.2, (hre t).mp h⟩
    · rintro ⟨b', t', htext, hadm, ht⟩
      obtain ⟨rfl, rfl⟩ := List.cons.inj htext
      rw [if_pos ⟨hb, hadm⟩]
      exact (hre t).mpr ht

lemma get_zero_iff {t : CString} : (decide (t.get 0 = 0)) = true ↔ t.chars = [] := by
  rw [decide_eq_true_iff, CString.get_eq_zero_iff, CString.length, Nat.le_zero,
    length_eq_zero_iff]

lemma matchhere_iff (re t : CString) : matchhere re t = true ↔
    Begins (readItems re.chars).1 (readItems re.chars).2 t.chars := by
  induction hn : re.length using Nat.strong_induction_on generalizing re t with
  | _ n ih =>
  subst hn
  rw [matchhere]
  induction re using CString.cons_induction with
  | nil =>
    rw [if_pos (CString.get_nil 0), CString.chars_nil, readItems, begins_nil]
    simp
  | cons c re hc _ =>
    rw [CString.get_cons_zero, CString.get_cons_succ, if_neg hc]
    induction re using CString.cons_induction with
    | nil =>
      have hnext := char_iff (t := t) (c := c) fun u => ih 0 Nat.one_pos CString.nil u rfl
      rw [CString.get_nil, if_neg (by decide), CString.chars_cons, CString.chars_nil, readItems]
      by_cases hdollar : c = chr '$'
      · rw [if_pos ⟨hdollar, rfl⟩, if_pos hdollar, get_zero_iff, begins_nil]
        exact ⟨fun h _ => h, fun h => h rfl⟩
      · rw [if_neg fun h => hdollar h.1, if_neg hdollar]
        exact hnext
    | cons d re hd _ =>
      rw [CString.get_cons_zero, CString.chars_cons, CString.chars_cons, readItems]
      by_cases hstar : d = chr '*'
      · rw [if_pos hstar, if_pos hstar]
        have hlt : re.length < re.length + 2 := Nat.lt_add_of_pos_right Nat.two_pos
        exact matchstar_iff (fun u => ih re.length hlt re u rfl) c t
      · rw [if_neg hstar, if_neg fun h => hd h.2, if_neg hstar]
        exact char_iff fun u => ih (re.length + 1) (Nat.lt_succ_self _) (.cons d re hd) u rfl

lemma matchLoop_iff (re t : CString) : matchLoop re t = true ↔
    ∃ before after, t.chars = before ++ after ∧
      Begins (readItems re.chars).1 (readItems re.chars).2 after := by
  induction t using CString.cons_induction with
  | nil =>
    rw [matchLoop, ite_true_iff, matchhere_iff, CString.chars_nil]
    constructor
    · exact fun h => ⟨[], [], rfl, h.resolve_right fun h => h.1 rfl⟩
    · rintro ⟨before, after, h, hafter⟩
      rw [(append_eq_nil_iff.mp h.symm).2] at hafter
      exact Or.inl hafter
  | cons b t hb ih =>
    rw [matchLoop, ite_true_iff, matchhere_iff, CString.chars_cons, CString.skip_cons_succ,
      CString.skip_zero, ih]
    constructor
    · rintro (h | ⟨-, before, after, h, hafter⟩)
      · exact ⟨[], _, rfl, h⟩
      · exact ⟨b :: before, after, by rw [h, cons_append], hafter⟩
    · rintro ⟨before, after, h, hafter⟩
      cases before with
      | nil => exact Or.inl (h ▸ hafter)
      | cons b' before =>
        obtain ⟨-, htail⟩ := List.cons.inj h
        exact Or.inr ⟨hb, before, after, htail, hafter⟩

/-- **The matcher implements its pattern language.**  It finds a match exactly if the text has a
part, from its start for a leading `^`, that is in the language of the pattern. -/
theorem matchRe_iff_matches (re t : CString) :
    matchRe re t = true ↔ (Pattern.read re).Matches t.chars := by
  unfold matchRe Pattern.read
  split_ifs with h
  · rw [matchhere_iff]
    constructor
    · rintro ⟨w, after, htext, hw, hstop⟩
      exact ⟨[], w, after, htext, hw, fun _ => rfl, hstop⟩
    · rintro ⟨before, w, after, htext, hw, hstart, hstop⟩
      rw [hstart rfl, List.nil_append] at htext
      exact ⟨w, after, htext, hw, hstop⟩
  · rw [matchLoop_iff]
    constructor
    · rintro ⟨before, rest, htext, w, after, rfl, hw, hstop⟩
      exact ⟨before, w, after, by rw [htext, List.append_assoc], hw, nofun, hstop⟩
    · rintro ⟨before, w, after, htext, hw, -, hstop⟩
      exact ⟨before, w ++ after, by rw [htext, List.append_assoc], w, after, rfl, hw, hstop⟩

end Xv6.Grep
