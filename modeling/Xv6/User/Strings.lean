/-!
# Strings in memory

A pointer to a string is the list of the bytes from there to the end of the array it points into;
the byte after the array is read as a NUL. The string itself ends before the first NUL.
-/

namespace Xv6.User

abbrev chr (c : Char) : UInt8 := c.toUInt8

/-- `s[i]`. -/
def byteAt (s : List UInt8) (i : Nat) : UInt8 := s.getD i 0

/-- The string at a pointer. -/
def str (s : List UInt8) : List UInt8 := s.takeWhile (· ≠ 0)

/-- `strchr`: where the first `c` of the string is. -/
def strchr : (s : List UInt8) → (c : UInt8) → Option Nat
  | [], _ => none
  | b :: s, c => if b = 0 then none else if b = c then some 0 else (strchr s c).map (· + 1)

/-- Bytes are stored in an array from an index on. -/
def overwrite (buf : List UInt8) (m : Nat) (bs : List UInt8) : List UInt8 :=
  buf.take m ++ bs ++ buf.drop (m + bs.length)

variable {s : List UInt8} {c b : UInt8}

theorem str_nil : str [] = [] := rfl

theorem str_cons (h : b ≠ 0) : str (b :: s) = b :: str s :=
  List.takeWhile_cons_of_pos (by simpa using h)

theorem str_eq_nil (h : byteAt s 0 = 0) : str s = [] := by
  cases s with
  | nil => rfl
  | cons b s =>
    have hb : b = 0 := h
    exact List.takeWhile_cons_of_neg (by simpa using hb)

theorem str_at_zero (h : byteAt s 0 ≠ 0) : str s = byteAt s 0 :: str (s.drop 1) := by
  cases s with
  | nil => exact absurd rfl h
  | cons b s => exact str_cons h

theorem str_of_notMem (h : 0 ∉ s) : str s = s := by
  induction s with
  | nil => rfl
  | cons b s ih =>
    obtain ⟨hb, hs⟩ := not_or.1 (mt List.mem_cons.2 h)
    rw [str_cons (Ne.symm hb), ih hs]

theorem length_drop_lt (h : byteAt s 0 ≠ 0) {n : Nat} : (s.drop (n + 1)).length < s.length := by
  cases s with
  | nil => exact absurd rfl h
  | cons b s =>
    rw [List.length_drop, List.length_cons]
    omega

theorem byteAt_drop (s : List UInt8) (n i : Nat) : byteAt (s.drop n) i = byteAt s (n + i) := by
  rw [byteAt, byteAt, List.getD_eq_getElem?_getD, List.getD_eq_getElem?_getD, List.getElem?_drop]

theorem str_append_zero {rest : List UInt8} (h : 0 ∉ s) : str (s ++ 0 :: rest) = s := by
  induction s with
  | nil => exact str_eq_nil rfl
  | cons b s ih =>
    obtain ⟨hb, hs⟩ := not_or.1 (mt List.mem_cons.2 h)
    rw [List.cons_append, str_cons (Ne.symm hb), ih hs]

theorem strchr_lt {i : Nat} (h : strchr s c = some i) : i < s.length := by
  induction s generalizing i with
  | nil => cases h
  | cons b s ih =>
    rw [strchr] at h
    split at h
    · cases h
    split at h
    · cases h
      exact Nat.succ_pos _
    · obtain ⟨j, hj, rfl⟩ := Option.map_eq_some_iff.1 h
      exact Nat.succ_lt_succ (ih hj)

theorem strchr_append {rest : List UInt8} (hzero : 0 ∉ s) (hs : c ∉ s) (hc : c ≠ 0) :
    strchr (s ++ c :: rest) c = some s.length := by
  induction s with
  | nil => rw [List.nil_append, strchr, if_neg hc, if_pos rfl, List.length_nil]
  | cons b s ih =>
    obtain ⟨hb, hzero⟩ := not_or.1 (mt List.mem_cons.2 hzero)
    obtain ⟨hbc, hs⟩ := not_or.1 (mt List.mem_cons.2 hs)
    rw [List.cons_append, strchr, if_neg (Ne.symm hb), if_neg (Ne.symm hbc), ih hzero hs]
    rfl

theorem strchr_none {rest : List UInt8} (hs : c ∉ s) : strchr (s ++ 0 :: rest) c = none := by
  induction s with
  | nil => rfl
  | cons b s ih =>
    obtain ⟨hbc, hs⟩ := not_or.1 (mt List.mem_cons.2 hs)
    rw [List.cons_append, strchr]
    split
    · rfl
    · rw [if_neg (Ne.symm hbc), ih hs]
      rfl

/-! ## Arrays -/

variable {buf l rest : List UInt8} {p : Nat}

theorem drop_set (h : buf.drop p = l ++ b :: rest) :
    (buf.set (p + l.length) c).drop p = l ++ c :: rest := by
  rw [List.drop_set, if_neg (by omega), h, Nat.add_sub_cancel_left,
    List.set_append_right _ _ (Nat.le_refl _), Nat.sub_self, List.set_cons_zero]

theorem drop_line (h : buf.drop p = l ++ b :: rest) : buf.drop (p + l.length + 1) = rest := by
  rw [Nat.add_assoc, ← List.drop_drop, h, List.drop_append, Nat.add_sub_cancel_left,
    List.drop_eq_nil_of_le (by omega)]
  rfl

/-! ## Lines -/

abbrev newline : UInt8 := chr '\n'

/-- A text made of lines. -/
def lines (ls : List (List UInt8)) : List UInt8 := ls.flatMap (· ++ [newline])

/-- Lines have neither a newline nor a NUL in them. -/
def Line (l : List UInt8) : Prop := newline ∉ l ∧ 0 ∉ l

instance : DecidablePred Line := fun l => inferInstanceAs (Decidable (newline ∉ l ∧ 0 ∉ l))

variable {ls ls' : List (List UInt8)}

theorem lines_cons : lines (l :: ls) = l ++ newline :: lines ls := by
  rw [lines, lines, List.flatMap_cons, List.append_assoc, List.singleton_append]

theorem lines_append : lines (ls ++ ls') = lines ls ++ lines ls' := List.flatMap_append

end Xv6.User
