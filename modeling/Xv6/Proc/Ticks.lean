import Mathlib.Algebra.Group.Nat.Defs
import Mathlib.Data.Nat.Find
import Mathlib.Logic.Function.Iterate

/-!
# `sys_sleep`

The loop of `sys_sleep` (`kernel/sysproc.c`) against the clock interrupts that happen while the
caller sleeps. Its condition compares the unsigned `ticks - ticks0` with the signed `n`, which C
converts to unsigned.
-/

namespace Xv6.Procs

/-- `clockintr`, as far as `ticks` goes. -/
def clockintr (ticks : BitVec 32) : BitVec 32 := ticks + 1

/-- The loop of `sys_sleep` at its test number `k`. Before test `k + 1` there are `gap k` clock
interrupts. With the result comes the test at which the loop ended. -/
def sleepFrom (n ticks0 : BitVec 32) (gap : Nat → Nat) (killed : Nat → Bool) :
    (fuel k : Nat) → (ticks : BitVec 32) → Option (Int × Nat)
  | 0, _, _ => none
  | fuel + 1, k, ticks =>
    if (ticks - ticks0).ult n then
      if killed k then some (-1, k)
      else sleepFrom n ticks0 gap killed fuel (k + 1) (clockintr^[gap k] ticks)
    else some (0, k)

def sysSleep (n ticks : BitVec 32) (gap : Nat → Nat) (killed : Nat → Bool) (fuel : Nat) :
    Option (Int × Nat) :=
  let ticks0 := ticks
  sleepFrom n ticks0 gap killed fuel 0 ticks

/-- The clock interrupts before test `k`. -/
def elapsed (gap : Nat → Nat) : Nat → Nat
  | 0 => 0
  | k + 1 => elapsed gap k + gap k

/-- Test `k` is the first one by which `max (n, 0)` ticks have passed. -/
def Due (n : BitVec 32) (gap : Nat → Nat) (k : Nat) : Prop :=
  max n.toInt 0 ≤ elapsed gap k ∧ ∀ j < k, (elapsed gap j : Int) < max n.toInt 0

theorem Due.unique {n : BitVec 32} {gap : Nat → Nat} {j k : Nat} (hj : Due n gap j)
    (hk : Due n gap k) :
    j = k := by
  rcases Nat.lt_trichotomy j k with h | h | h
  · exact absurd hj.1 (Int.not_le.2 (hk.2 j h))
  · exact h
  · exact absurd hk.1 (Int.not_le.2 (hj.2 k h))

section

variable {n ticks0 : BitVec 32} {gap : Nat → Nat}

theorem clockintr_iterate (m : Nat) (ticks : BitVec 32) :
    clockintr^[m] ticks = ticks + BitVec.ofNat 32 m := by
  induction m generalizing ticks with
  | zero => simp
  | succ m ih =>
    rw [Function.iterate_succ_apply, ih, clockintr, BitVec.ofNat_add]
    ac_rfl

/-- The test at which `k` ticks have passed, across any number of wraps of the counter. -/
theorem ult_elapsed (k : Nat) :
    (ticks0 + BitVec.ofNat 32 k - ticks0).ult n = decide (k % 2 ^ 32 < n.toNat) := by
  rw [BitVec.add_comm, BitVec.add_sub_cancel, BitVec.ult, BitVec.toNat_ofNat]

/-- The loop stands still only where the unsigned comparison fails. -/
theorem le_of_sleepFrom {fuel k j : Nat}
    (h : sleepFrom n ticks0 gap (fun _ => false) fuel k (ticks0 + BitVec.ofNat 32 (elapsed gap k)) =
      some (0, j)) : n.toNat ≤ elapsed gap j % 2 ^ 32 := by
  induction fuel generalizing k with
  | zero => cases h
  | succ fuel ih =>
    simp only [sleepFrom, ult_elapsed] at h
    split at h
    · simp only [Bool.false_eq_true, if_false, clockintr_iterate, BitVec.add_assoc,
        ← BitVec.ofNat_add] at h
      exact ih h
    · rename_i hge
      cases h
      exact Nat.le_of_not_lt (of_decide_eq_true (by simpa using hge))

theorem sleepFrom_eq {k : Nat} (d : Nat) (hk : n.toNat ≤ elapsed gap (k + d) % 2 ^ 32)
    (hlt : ∀ j, k ≤ j → j < k + d → elapsed gap j % 2 ^ 32 < n.toNat) :
    sleepFrom n ticks0 gap (fun _ => false) (d + 1) k (ticks0 + BitVec.ofNat 32 (elapsed gap k)) =
      some (0, k + d) := by
  induction d generalizing k with
  | zero =>
    simp only [sleepFrom, ult_elapsed]
    rw [if_neg (by simpa using hk)]
    rfl
  | succ d ih =>
    rw [sleepFrom, ult_elapsed, if_pos (by simpa using hlt k le_rfl (by omega))]
    simp only [Bool.false_eq_true, if_false, clockintr_iterate, BitVec.add_assoc,
      ← BitVec.ofNat_add]
    rw [show k + (d + 1) = k + 1 + d by omega] at hk hlt ⊢
    exact ih hk fun j hj => hlt j (by omega)

theorem le_elapsed (hgap : ∀ i, 0 < gap i) (k : Nat) : k ≤ elapsed gap k := by
  induction k with
  | zero => exact le_rfl
  | succ k ih => exact Nat.add_le_add ih (hgap k)

theorem exists_due (n : BitVec 32) (hgap : ∀ i, 0 < gap i) : ∃ k, Due n gap k := by
  have h : ∃ k, max n.toInt 0 ≤ elapsed gap k :=
    ⟨n.toInt.toNat, by have := le_elapsed hgap n.toInt.toNat; omega⟩
  refine ⟨Nat.find h, Nat.find_spec h, fun j hj => ?_⟩
  exact Int.not_le.1 (Nat.find_min h hj)

end

/-- A caller that is not killed returns 0 at the first test by which `max (n, 0)` ticks have passed
if and only if `n` is not negative and the ticks passed by then are not fewer than `n` modulo `2 ^
32`. -/
theorem sysSleep_iff (n ticks : BitVec 32) (gap : Nat → Nat) (hgap : ∀ i, 0 < gap i) :
    (∃ fuel k, sysSleep n ticks gap (fun _ => false) fuel = some (0, k) ∧ Due n gap k) ↔
      0 ≤ n.toInt ∧ ∀ k, Due n gap k → n.toNat ≤ elapsed gap k % 2 ^ 32 := by
  have start : ∀ fuel, sysSleep n ticks gap (fun _ => false) fuel =
      sleepFrom n ticks gap (fun _ => false) fuel 0 (ticks + BitVec.ofNat 32 (elapsed gap 0)) := by
    simp [sysSleep, elapsed]
  constructor
  · rintro ⟨fuel, k, hs, hk⟩
    rw [start] at hs
    have hle := le_of_sleepFrom hs
    refine ⟨?_, fun j hj => hj.unique hk ▸ hle⟩
    by_contra hn
    -- the first test is due, and no tick has passed
    have hz : Due n gap 0 := ⟨by simp only [elapsed]; omega, nofun⟩
    rw [hk.unique hz] at hle
    simp only [elapsed, Nat.zero_mod, BitVec.toInt] at hle hn
    split at hn <;> omega
  · rintro ⟨hn, hmod⟩
    obtain ⟨k, hk⟩ := exists_due n hgap
    have hnat : n.toInt = n.toNat := by
      have := n.isLt
      simp only [BitVec.toInt] at hn ⊢
      split at hn <;> omega
    have hk' := hmod k hk
    refine ⟨k + 1, k, ?_, hk⟩
    have passed : ∀ j, 0 ≤ j → j < 0 + k → elapsed gap j % 2 ^ 32 < n.toNat := by
      intro j _ hj
      have := hk.2 j (by omega)
      omega
    rw [start, sleepFrom_eq k (by rwa [Nat.zero_add]) passed, Nat.zero_add]

/-- Three ticks, one at a time, from a counter that wraps. -/
theorem sysSleep_wrap :
    ∃ fuel k, sysSleep 3 (-2) (fun _ => 1) (fun _ => false) fuel = some (0, k) ∧
    Due 3 (fun _ => 1) k := by
  refine (sysSleep_iff 3 (-2) (fun _ => 1) fun _ => Nat.one_pos).2 ⟨by decide, fun k hk => ?_⟩
  have three : Due 3 (fun _ => 1) 3 := ⟨by decide, by decide⟩
  rw [hk.unique three]
  decide

/-- `sleep(-1)` is due at once, and returns after `2 ^ 32 - 1` ticks at the earliest. -/
theorem sysSleep_negative :
    Due (-1) (fun _ => 1) 0 ∧
      ∀ fuel k, sysSleep (-1) 0 (fun _ => 1) (fun _ => false) fuel = some (0, k) →
        2 ^ 32 - 1 ≤ elapsed (fun _ => 1) k := by
  refine ⟨⟨by decide, nofun⟩, fun fuel k h => ?_⟩
  have hle : (-1 : BitVec 32).toNat ≤ elapsed (fun _ => 1) k % 2 ^ 32 :=
    @le_of_sleepFrom (-1) 0 _ fuel 0 k h
  have hn : (-1 : BitVec 32).toNat = 2 ^ 32 - 1 := by decide
  omega

end Xv6.Procs
