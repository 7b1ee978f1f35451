import Xv6.User.Strings
import Mathlib.Computability.Language

/-!
# The matcher of `grep`

`match`, `matchhere` and `matchstar` of `user/grep.c`. A pattern is read as a regular expression
(`Regex.read`), and `match` finds it in a text exactly if one of its words is there (`match_iff`).
-/

namespace Xv6.Grep

open User List

/-! ## The code -/

mutual

/-- `matchhere`: search for `re` at the beginning of `text`. -/
def matchhere (re text : List UInt8) : Bool :=
  if byteAt re 0 = 0 then true
  else if byteAt re 1 = chr '*' then matchstar (byteAt re 0) (re.drop 2) text
  else if byteAt re 0 = chr '$' ∧ byteAt re 1 = 0 then byteAt text 0 = 0
  else if byteAt text 0 ≠ 0 ∧ (byteAt re 0 = chr '.' ∨ byteAt re 0 = byteAt text 0) then
    matchhere (re.drop 1) (text.drop 1)
  else false
termination_by (re.length, text.length, 0)
decreasing_by
  · exact Prod.Lex.left _ _ (length_drop_lt ‹_›)
  · exact Prod.Lex.left _ _ (length_drop_lt ‹_›)

/-- `matchstar`: search for `c*re` at the beginning of `text`. -/
def matchstar (c : UInt8) (re text : List UInt8) : Bool :=
  if matchhere re text then true
  else if byteAt text 0 ≠ 0 ∧ (byteAt text 0 = c ∨ c = chr '.') then matchstar c re (text.drop 1)
  else false
termination_by (re.length, text.length, 1)
decreasing_by
  · exact Prod.Lex.right _ (Prod.Lex.right _ Nat.zero_lt_one)
  · exact Prod.Lex.right _ (Prod.Lex.left _ _ (length_drop_lt (And.left ‹_›)))

end

/-- The loop of `match`. -/
def matchLoop (re text : List UInt8) : Bool :=
  if matchhere re text then true
  else if byteAt text 0 ≠ 0 then matchLoop re (text.drop 1)
  else false
termination_by text.length
decreasing_by exact length_drop_lt ‹_›

def «match» (re text : List UInt8) : Bool :=
  if byteAt re 0 = chr '^' then matchhere (re.drop 1) text else matchLoop re text

/-! ## What patterns mean -/

/-- A character or `.`, starred or not. -/
structure Item where
  c : UInt8
  star : Bool
  deriving DecidableEq, Repr

/-- The items of a pattern without its `^`, and whether it ends in an unstarred `$`. -/
def items : List UInt8 → List Item × Bool
  | [] => ([], false)
  | [c] => if c = chr '$' then ([], true) else ([⟨c, false⟩], false)
  | c :: d :: re =>
    if d = chr '*' then (⟨c, true⟩ :: (items re).1, (items re).2)
    else (⟨c, false⟩ :: (items (d :: re)).1, (items (d :: re)).2)

structure Regex where
  items : List Item
  atStart : Bool
  atEnd : Bool
  deriving DecidableEq, Repr

def Regex.read (re : List UInt8) : Regex :=
  if re.head? = some (chr '^') then ⟨(Grep.items re.tail).1, true, (Grep.items re.tail).2⟩
  else ⟨(Grep.items re).1, false, (Grep.items re).2⟩

/-- The bytes that a character of a pattern stands for. -/
def Stands (c b : UInt8) : Prop := c = chr '.' ∨ c = b

/-- The words of an item. -/
def Item.lang (i : Item) : Language UInt8 :=
  let one : Language UInt8 := {w | ∃ b, Stands i.c b ∧ w = [b]}
  if i.star then KStar.kstar one else one

/-- The words of a sequence of items. -/
def lang (is : List Item) : Language UInt8 := (is.map Item.lang).prod

/-- A word of the expression occurs in the text, at its start and up to its end where the expression
says so. -/
def Regex.Occurs (r : Regex) (text : List UInt8) : Prop :=
  ∃ before word after, text = before ++ word ++ after ∧ word ∈ lang r.items ∧
    (r.atStart = true → before = []) ∧
    (r.atEnd = true → after = [])

/-! ## Items at the beginning of a text -/

/-- A word of the items is at the beginning of the text, and is all of it if need be. -/
def Here (is : List Item × Bool) (text : List UInt8) : Prop :=
  ∃ word after, text = word ++ after ∧ word ∈ lang is.1 ∧ (is.2 = true → after = [])

section

variable {is : List Item} {c b : UInt8} {e : Bool} {re text : List UInt8}

theorem lang_cons (i : Item) : lang (i :: is) = i.lang * lang is := prod_cons

theorem mem_lang_one (h : Stands c b) : [b] ∈ Item.lang ⟨c, false⟩ := ⟨b, h, rfl⟩

theorem here_nil_false : Here ([], false) text := ⟨[], text, rfl, rfl, nofun⟩

theorem here_nil_true : Here ([], true) text ↔ text = [] := by
  constructor
  · intro h
    obtain ⟨word, after, htext, hword, hafter⟩ := h
    obtain rfl : word = [] := hword
    exact htext.trans (hafter rfl)
  · intro h
    exact ⟨[], [], h, rfl, fun _ => rfl⟩

theorem here_one_nil : ¬Here (⟨c, false⟩ :: is, e) [] := by
  intro h
  obtain ⟨word, after, htext, hword, -⟩ := h
  rw [lang_cons] at hword
  obtain ⟨_, ⟨b, -, rfl⟩, rest, -, rfl⟩ := Language.mem_mul.1 hword
  cases htext

theorem here_one_cons : Here (⟨c, false⟩ :: is, e) (b :: text) ↔ Stands c b ∧
    Here (is, e) text := by
  constructor
  · intro h
    obtain ⟨word, after, htext, hword, hafter⟩ := h
    rw [lang_cons] at hword
    obtain ⟨_, ⟨b', hb, rfl⟩, rest, hrest, rfl⟩ := Language.mem_mul.1 hword
    obtain ⟨rfl, rfl⟩ := cons.inj htext
    exact ⟨hb, rest, after, rfl, hrest, hafter⟩
  · intro h
    obtain ⟨hb, word, after, rfl, hword, hafter⟩ := h
    refine ⟨b :: word, after, rfl, ?_, hafter⟩
    rw [lang_cons]
    exact Language.append_mem_mul (mem_lang_one hb) hword

/-- The words of a starred item: none, or one byte and more of them. -/
theorem mem_lang_star {word : List UInt8} : word ∈ lang (⟨c, true⟩ :: is) ↔
    word ∈ lang is ∨ ∃ b rest, Stands c b ∧ word = b :: rest ∧ rest ∈ lang (⟨c, true⟩ :: is) := by
  have hstar : lang (⟨c, true⟩ :: is) = lang is + Item.lang ⟨c, false⟩ * lang
      (⟨c, true⟩ :: is) := by
    rw [lang_cons]
    nth_rewrite 1 [show Item.lang ⟨c, true⟩ = KStar.kstar (Item.lang ⟨c, false⟩) from rfl]
    rw [← Language.one_add_self_mul_kstar_eq_kstar, add_mul, one_mul, mul_assoc]
    rfl
  rw [hstar, Language.mem_add, ← hstar]
  refine or_congr_right ⟨fun h => ?_, fun h => ?_⟩
  · obtain ⟨_, ⟨b, hb, rfl⟩, rest, hrest, rfl⟩ := Language.mem_mul.1 h
    exact ⟨b, rest, hb, rfl, hrest⟩
  · obtain ⟨b, rest, hb, rfl, hrest⟩ := h
    exact Language.append_mem_mul (mem_lang_one hb) hrest

theorem here_star_nil : Here (⟨c, true⟩ :: is, e) [] ↔ Here (is, e) [] := by
  constructor
  · intro h
    obtain ⟨word, after, htext, hword, hafter⟩ := h
    obtain ⟨rfl, rfl⟩ := append_eq_nil_iff.1 htext.symm
    rcases mem_lang_star.1 hword with hword | ⟨b, rest, -, hcons, -⟩
    · exact ⟨[], [], rfl, hword, fun _ => rfl⟩
    · cases hcons
  · intro h
    obtain ⟨word, after, htext, hword, hafter⟩ := h
    exact ⟨word, after, htext, mem_lang_star.2 (.inl hword), hafter⟩

theorem here_star_cons : Here (⟨c, true⟩ :: is, e) (b :: text) ↔
    Here (is, e) (b :: text) ∨ Stands c b ∧ Here (⟨c, true⟩ :: is, e) text := by
  constructor
  · intro h
    obtain ⟨word, after, htext, hword, hafter⟩ := h
    rcases mem_lang_star.1 hword with hword | ⟨b', rest, hb, rfl, hrest⟩
    · exact .inl ⟨word, after, htext, hword, hafter⟩
    · obtain ⟨rfl, rfl⟩ := cons.inj htext
      exact .inr ⟨hb, rest, after, rfl, hrest, hafter⟩
  · intro h
    rcases h with ⟨word, after, htext, hword, hafter⟩ | ⟨hb, word, after, rfl, hword, hafter⟩
    · exact ⟨word, after, htext, mem_lang_star.2 (.inl hword), hafter⟩
    · exact ⟨b :: word, after, rfl, mem_lang_star.2 (.inr ⟨b, word, hb, rfl, hword⟩), hafter⟩

end

/-! ## The code finds what patterns mean -/

section

variable {re text : List UInt8} {c : UInt8}

theorem items_star (h₀ : byteAt re 0 ≠ 0) (h₁ : byteAt re 1 = chr '*') : items (str re) =
    (⟨byteAt re 0, true⟩ :: (items (str (re.drop 2))).1, (items (str (re.drop 2))).2) := by
  have hdrop : byteAt (re.drop 1) 0 = chr '*' := (byteAt_drop re 1 0).trans h₁
  rw [str_at_zero h₀, str_at_zero (by rw [hdrop]; decide), hdrop, drop_drop, items, if_pos rfl]

theorem items_end (h₀ : byteAt re 0 = chr '$') (h₁ : byteAt re 1 = 0) :
    items (str re) = ([], true) := by
  rw [str_at_zero (by rw [h₀]; decide), str_eq_nil ((byteAt_drop re 1 0).trans h₁),
    items, if_pos h₀]

theorem items_one (h₀ : byteAt re 0 ≠ 0) (h₁ : byteAt re 1 ≠ chr '*')
    (h₂ : ¬(byteAt re 0 = chr '$' ∧ byteAt re 1 = 0)) :
    items (str re) = (⟨byteAt re 0, false⟩ :: (items (str (re.drop 1))).1,
      (items (str (re.drop 1))).2) := by
  have hdrop : byteAt (re.drop 1) 0 = byteAt re 1 := byteAt_drop re 1 0
  rw [str_at_zero h₀]
  by_cases hend : byteAt re 1 = 0
  · rw [str_eq_nil (hdrop.trans hend), items, items, if_neg fun h => h₂ ⟨h, hend⟩]
  · rw [str_at_zero (hdrop ▸ hend), items, hdrop, if_neg h₁]

/-- `matchstar`, if `matchhere` does what it should with the rest of the pattern. -/
theorem matchstar_iff (here : ∀ text, matchhere re text = true ↔ Here (items (str re)) (str text)) :
    matchstar c re text = true ↔
      Here (⟨c, true⟩ :: (items (str re)).1, (items (str re)).2) (str text) := by
  induction text with
  | nil =>
    have hstop : ¬(byteAt [] 0 ≠ 0 ∧ (byteAt [] 0 = c ∨ c = chr '.')) := fun h => h.1 rfl
    have hnil : matchhere re [] = true ↔ Here (items (str re)) [] := here []
    rw [matchstar, if_neg hstop, str_nil, here_star_nil, ← hnil]
    simp
  | cons b text ih =>
    rw [matchstar]
    by_cases hb : b = 0
    · have hstop : ¬(byteAt (b :: text) 0 ≠ 0 ∧ (byteAt (b :: text) 0 = c ∨ c = chr '.')) :=
        fun h => h.1 hb
      have hnil : str (b :: text) = [] := str_eq_nil hb
      rw [if_neg hstop, hnil, here_star_nil, ← hnil, ← here]
      simp
    · have hgo : (byteAt (b :: text) 0 ≠ 0 ∧ (byteAt (b :: text) 0 = c ∨ c = chr '.')) ↔
          Stands c b :=
        (and_iff_right hb).trans (or_comm.trans (or_congr_right eq_comm))
      rw [str_cons hb, here_star_cons, ← str_cons hb, ← here, ← ih, drop_one, tail_cons]
      by_cases hs : Stands c b
      · rw [if_pos (hgo.2 hs)]
        simp [hs]
      · rw [if_neg (mt hgo.1 hs)]
        simp [hs]

/-- `matchhere` looks for the items of its pattern at the beginning of the text. -/
theorem matchhere_iff (re text : List UInt8) :
    matchhere re text = true ↔ Here (items (str re)) (str text) := by
  -- on the length of the pattern: an item is one byte or two
  induction hn : re.length using Nat.strong_induction_on generalizing re text with
  | _ n ih =>
    subst hn
    rw [matchhere]
    by_cases h₀ : byteAt re 0 = 0
    · rw [if_pos h₀, str_eq_nil h₀]
      exact iff_of_true rfl here_nil_false
    rw [if_neg h₀]
    by_cases h₁ : byteAt re 1 = chr '*'
    · rw [if_pos h₁, items_star h₀ h₁]
      exact matchstar_iff fun text => ih _ (length_drop_lt h₀) _ _ rfl
    rw [if_neg h₁]
    by_cases h₂ : byteAt re 0 = chr '$' ∧ byteAt re 1 = 0
    · rw [if_pos h₂, items_end h₂.1 h₂.2, here_nil_true, decide_eq_true_iff]
      constructor
      · exact str_eq_nil
      · intro h
        by_contra hne
        rw [str_at_zero hne] at h
        cases h
    rw [if_neg h₂, items_one h₀ h₁ h₂]
    by_cases ht : byteAt text 0 = 0
    · rw [if_neg fun h => h.1 ht, str_eq_nil ht]
      exact iff_of_false Bool.false_ne_true here_one_nil
    · rw [str_at_zero ht, here_one_cons]
      by_cases hc : byteAt re 0 = chr '.' ∨ byteAt re 0 = byteAt text 0
      · rw [if_pos ⟨ht, hc⟩, ih _ (length_drop_lt h₀) _ _ rfl]
        exact (and_iff_right hc).symm
      · rw [if_neg fun h => hc h.2]
        exact iff_of_false Bool.false_ne_true fun h => hc h.1

/-- The loop of `match` looks for them further on, too. -/
theorem matchLoop_iff : matchLoop re text = true ↔
    ∃ before after, str text = before ++ after ∧ Here (items (str re)) after := by
  induction text with
  | nil =>
    rw [matchLoop, if_neg (not_not.2 rfl : ¬byteAt [] 0 ≠ 0), str_nil]
    have hnil : matchhere re [] = true ↔ Here (items (str re)) [] := matchhere_iff re []
    constructor
    · intro h
      exact ⟨[], [], rfl, hnil.1 (by simpa using h)⟩
    · intro h
      obtain ⟨before, after, htext, h⟩ := h
      obtain ⟨-, rfl⟩ := append_eq_nil_iff.1 htext.symm
      simpa using hnil.2 h
  | cons b text ih =>
    rw [matchLoop, drop_one, tail_cons]
    by_cases hhere : matchhere re (b :: text) = true
    · rw [if_pos hhere]
      exact iff_of_true rfl ⟨[], _, rfl, (matchhere_iff ..).1 hhere⟩
    rw [if_neg hhere]
    rw [matchhere_iff] at hhere
    by_cases hb : b = 0
    · rw [if_neg (not_not.2 hb : ¬byteAt (b :: text) 0 ≠ 0)]
      have hnil : str (b :: text) = [] := str_eq_nil hb
      rw [hnil] at hhere ⊢
      refine iff_of_false Bool.false_ne_true fun ⟨before, after, htext, h⟩ => hhere ?_
      obtain ⟨-, rfl⟩ := append_eq_nil_iff.1 htext.symm
      exact h
    · rw [if_pos (show byteAt (b :: text) 0 ≠ 0 from hb), ih]
      rw [str_cons hb] at hhere ⊢
      constructor
      · intro h
        obtain ⟨before, after, htext, h⟩ := h
        exact ⟨b :: before, after, congrArg _ htext, h⟩
      · intro h
        obtain ⟨before, after, htext, h⟩ := h
        cases before with
        | nil =>
          obtain rfl : b :: str text = after := htext
          exact absurd h hhere
        | cons b' before => exact ⟨before, after, (cons.inj htext).2, h⟩

/-- `match` finds a pattern in a text exactly if the text has what the pattern stands for, and it
returns for all patterns and texts. -/
theorem match_iff (re text : List UInt8) :
    «match» re text = true ↔ (Regex.read (str re)).Occurs (str text) := by
  rw [«match»]
  by_cases hcaret : byteAt re 0 = chr '^'
  · rw [if_pos hcaret, matchhere_iff]
    have hread : Regex.read (str re) = ⟨(items (str (re.drop 1))).1, true,
        (items (str (re.drop 1))).2⟩ := by
      rw [str_at_zero (by rw [hcaret]; decide), hcaret]
      rfl
    rw [hread]
    constructor
    · intro h
      obtain ⟨word, after, htext, hword, hafter⟩ := h
      exact ⟨[], word, after, htext, hword, fun _ => rfl, hafter⟩
    · intro h
      obtain ⟨before, word, after, htext, hword, hbefore, hafter⟩ := h
      obtain rfl := hbefore rfl
      exact ⟨word, after, htext, hword, hafter⟩
  · have hread : Regex.read (str re) = ⟨(items (str re)).1, false, (items (str re)).2⟩ := by
      rw [Regex.read, if_neg fun h => hcaret ?_]
      cases re with
      | nil => cases h
      | cons c re =>
        by_cases hc : c = 0
        · rw [str_eq_nil (show byteAt (c :: re) 0 = 0 from hc)] at h
          cases h
        · rw [str_cons hc] at h
          exact Option.some.inj h
    rw [if_neg hcaret, matchLoop_iff, hread]
    constructor
    · intro h
      obtain ⟨before, _, htext, word, after, rfl, hword, hafter⟩ := h
      exact ⟨before, word, after, by rw [htext, append_assoc], hword, nofun, hafter⟩
    · intro h
      obtain ⟨before, word, after, htext, hword, -, hafter⟩ := h
      exact ⟨before, word ++ after, by rw [htext, append_assoc], word, after, rfl, hword, hafter⟩

end

end Xv6.Grep
