import Xv6.User.Machine
import Mathlib.Data.Nat.Digits.Lemmas

/-!
# `printint`

The bytes that `printint` of `user/printf.c` writes for an integer, and those that `printint` of
`kernel/printf.c` writes: the numeral, with a minus sign for a negative number in signed mode.
-/

namespace Xv6.User

open List

/-- The bytes of a string. -/
def bytes (s : String) : List UInt8 := s.toUTF8.data.toList

/-- `digits`, `"0123456789ABCDEF"`. -/
def digits : List UInt8 := [48, 49, 50, 51, 52, 53, 54, 55, 56, 57, 65, 66, 67, 68, 69, 70]

/-- The loop that fills `buf`, least significant digit first. -/
def printintLoop (base : Nat) : (rounds x : Nat) → List UInt8
  | 0, _ => []
  | rounds + 1, x => digits.getD (x % base) 0 :: if x / base = 0 then []
      else printintLoop base rounds (x / base)

/-- What `printint` writes, `buf` from its end: the loop has at most 32 rounds, since `x` is a
`uint`. -/
def printint (xx : Int) (base : Nat) (sgn : Bool) : List UInt8 :=
  let neg := sgn && decide (xx < 0)
  let x := ((if neg then -xx else xx) % 2 ^ 32).toNat
  (printintLoop base 32 x ++ if neg then [45] else []).reverse

/-- A number in decimal. -/
def decimal (n : Nat) : List UInt8 := ((Nat.digits 10 n).map fun d => digits.getD d 0).reverse

/-- A number below `base ^ rounds` has no more than `rounds` digits. -/
theorem printintLoop_eq {base : Nat} (hbase : 1 < base) {rounds x : Nat} (hx : 0 < x)
    (hlt : x < base ^ rounds) :
    printintLoop base rounds x = (Nat.digits base x).map fun d => digits.getD d 0 := by
  induction rounds generalizing x with
  | zero => rw [pow_zero] at hlt; omega
  | succ rounds ih =>
    rw [Nat.digits_def' hbase hx, map_cons, printintLoop]
    congr 1
    split
    next hzero => simp [hzero]
    next hmore =>
      apply ih (Nat.pos_of_ne_zero hmore)
      exact Nat.div_lt_of_lt_mul (by rwa [pow_succ'] at hlt)

theorem printint_pos {n : Nat} (hpos : 0 < n) (hlt : n < 2 ^ 31) :
    printint n 10 true = decimal n := by
  have hneg : ¬(n : Int) < 0 := by omega
  have hmod : (((n : Int) % 2 ^ 32)).toNat = n := by omega
  have hbound : n < 10 ^ 32 := hlt.trans (by norm_num)
  simp only [printint, decide_eq_false hneg, Bool.and_false, Bool.false_eq_true, if_false,
    append_nil, hmod]
  rw [printintLoop_eq (by norm_num) hpos hbound, decimal]

/-! ## The kernel's `printint` -/

namespace Kprintf

/-- `digits` of `kernel/printf.c`, `"0123456789abcdef"`. -/
def digits : List UInt8 := [48, 49, 50, 51, 52, 53, 54, 55, 56, 57, 97, 98, 99, 100, 101, 102]

def printintLoop (base : Nat) : (rounds x : Nat) → List UInt8
  | 0, _ => []
  | rounds + 1, x => digits.getD (x % base) 0 :: if x / base = 0 then []
      else printintLoop base rounds (x / base)

/-- What `printint` of the kernel writes. The test `sign && (sign = xx < 0)` makes `sign` the flag
for the minus. -/
def printint (xx : Int) (base : Nat) (sign : Bool) : List UInt8 :=
  let sign := sign && decide (xx < 0)
  let x := ((if sign then -xx else xx) % 2 ^ 32).toNat
  (printintLoop base 32 x ++ if sign then [45] else []).reverse

end Kprintf

/-- `tolower`. -/
def lower (c : UInt8) : UInt8 := if 65 ≤ c ∧ c ≤ 90 then c + 32 else c

/-- The number to be printed. -/
def value (xx : Int) (sgn : Bool) : Nat := if sgn then xx.natAbs else (xx % 2 ^ 32).toNat

/-- The text is the numeral of `v` without leading zeros, behind a minus sign if `neg`. -/
def Numeral (table : List UInt8) (base : Nat) (neg : Bool) (v : Nat) (text : List UInt8) : Prop :=
  ∃ ds : List Nat, text = (if neg then [45] else []) ++ ds.map (table.getD · 0) ∧ ds ≠ [] ∧
    (∀ d ∈ ds, d < base) ∧
    Nat.ofDigits base ds.reverse = v ∧ (ds.head? = some 0 → ds = [0])

section

variable {base x : Nat}

theorem printintLoop_digits (hbase : 1 < base) (hlt : x < base ^ 15) :
    ∃ ds : List Nat, printintLoop base 32 x = ds.map (digits.getD · 0) ∧ ds ≠ [] ∧
    (∀ d ∈ ds, d < base) ∧
      Nat.ofDigits base ds = x ∧ (ds.getLast? = some 0 → ds = [0]) ∧ ds.length ≤ 15 := by
  rcases Nat.eq_zero_or_pos x with rfl | hpos
  · refine ⟨[0], ?_, cons_ne_nil _ _, ?_, rfl, fun _ => rfl, by decide⟩
    · rw [printintLoop, Nat.zero_mod, Nat.zero_div, if_pos rfl]
      rfl
    · exact forall_mem_singleton.2 (Nat.zero_lt_of_lt hbase)
  · have hne : Nat.digits base x ≠ [] := Nat.digits_ne_nil_iff_ne_zero.2 hpos.ne'
    refine ⟨Nat.digits base x, ?_, hne, fun d => Nat.digits_lt_base hbase,
      Nat.ofDigits_digits base x, fun hlast => ?_, (Nat.digits_length_le_iff hbase x).2 hlt⟩
    · exact printintLoop_eq hbase hpos (hlt.trans (Nat.pow_lt_pow_right hbase (by norm_num)))
    · rw [getLast?_eq_some_getLast hne, Option.some.injEq] at hlast
      exact absurd hlast (Nat.getLast_digit_ne_zero base hpos.ne')

theorem lower_digits {d : Nat} (hd : d < 16) :
    lower (digits.getD d 0) = Kprintf.digits.getD d 0 := by
  revert d
  decide

theorem lower_printintLoop (hbase : 1 < base ∧ base ≤ 16) (rounds : Nat) :
    (printintLoop base rounds x).map lower = Kprintf.printintLoop base rounds x := by
  induction rounds generalizing x with
  | zero => rfl
  | succ rounds ih =>
    have hd : x % base < 16 := (Nat.mod_lt x (by omega)).trans_le hbase.2
    rw [printintLoop, Kprintf.printintLoop, map_cons, lower_digits hd]
    split
    · rfl
    · rw [ih]

/-- Both functions print the numeral of a 32-bit number in at most 16 bytes, and print the same but
for the case of the letters. -/
theorem printint_numeral (xx : Int) (hxx : -2 ^ 31 ≤ xx ∧ xx < 2 ^ 31) (base : Nat)
    (hbase : base = 10 ∨ base = 16) (sgn : Bool) :
    Numeral digits base (sgn && decide (xx < 0)) (value xx sgn) (printint xx base sgn) ∧
      Numeral Kprintf.digits base (sgn && decide (xx < 0)) (value xx sgn)
      (Kprintf.printint xx base sgn) ∧
      (printint xx base sgn).length ≤ 16 ∧
      (printint xx base sgn).map lower = Kprintf.printint xx base sgn := by
  have hb : 1 < base ∧ base ≤ 16 := by omega
  have hvalue : ((if sgn && decide (xx < 0) then -xx else xx) % 2 ^ 32).toNat = value xx sgn := by
    unfold value
    cases sgn
    · rfl
    · by_cases hneg : xx < 0
      · simp only [hneg, decide_true, Bool.and_self, if_true]
        omega
      · simp only [hneg, decide_false, Bool.and_false, Bool.false_eq_true, if_false, if_true]
        omega
  have hlt : value xx sgn < base ^ 15 := by
    refine lt_of_lt_of_le (b := 2 ^ 32) (by unfold value; split <;> omega) ?_
    rcases hbase with rfl | rfl <;> norm_num
  have hlower : (printint xx base sgn).map lower = Kprintf.printint xx base sgn := by
    unfold printint Kprintf.printint
    dsimp only
    rw [map_reverse, map_append, lower_printintLoop hb]
    split <;> rfl
  obtain ⟨ds, hloop, hne, hds, hof, hlast, hlen⟩ := printintLoop_digits hb.1 hlt
  have htext : printint xx base sgn = (if sgn && decide (xx < 0) then [45] else []) ++
      ds.reverse.map (digits.getD · 0) := by
    unfold printint
    dsimp only
    rw [hvalue, hloop, reverse_append, map_reverse]
    split <;> rfl
  have hspec : ds.reverse ≠ [] ∧ (∀ d ∈ ds.reverse, d < base) ∧
      Nat.ofDigits base ds.reverse.reverse = value xx sgn ∧
        (ds.reverse.head? = some 0 → ds.reverse = [0]) := by
    refine ⟨by simpa using hne, fun d hd => hds d (mem_reverse.1 hd),
      by rw [reverse_reverse, hof], ?_⟩
    intro h0
    rw [head?_reverse] at h0
    rw [hlast h0]
    rfl
  refine ⟨⟨_, htext, hspec⟩, ⟨ds.reverse, ?_, hspec⟩, ?_, hlower⟩
  · rw [← hlower, htext, map_append, map_map]
    congr 1
    · split <;> rfl
    · exact map_congr_left fun d hd => lower_digits ((hspec.2.1 d hd).trans_le hb.2)
  · rw [htext, length_append, length_map, length_reverse]
    split <;> simp only [length_cons, length_nil] <;> omega

theorem printint_numeral_min : Numeral digits 10 true (2 ^ 31) (printint (-2 ^ 31) 10 true) :=
  (printint_numeral (-2 ^ 31) (by decide) 10 (.inl rfl) true).1

end

end Xv6.User
