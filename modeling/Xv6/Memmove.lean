import Mathlib.Logic.Function.Basic
import Mathlib.Tactic.SplitIfs

/-!
# `memmove`

`memmove` of `kernel/string.c` and of `user/ulib.c`. They choose the direction by different tests,
but each direction they choose reads every byte before it overwrites it. Addresses are integers,
nothing wraps.
-/

namespace Xv6.Memmove

open Function

abbrev Mem := Int → UInt8

/-- `while(n-- > 0) *d++ = *s++`. -/
def copyUp (m : Mem) (d s : Int) : Nat → Mem
  | 0 => m
  | n + 1 => copyUp (update m d (m s)) (d + 1) (s + 1) n

/-- `while(n-- > 0) *--d = *--s`. -/
def copyDown (m : Mem) (d s : Int) : Nat → Mem
  | 0 => m
  | n + 1 => copyDown (update m (d - 1) (m (s - 1))) (d - 1) (s - 1) n

/-- `memmove` of the kernel. -/
def memmove (m : Mem) (dst src : Int) (n : Nat) : Mem :=
  if n = 0 then m
  else if src < dst ∧ src + n > dst then copyDown m (dst + n) (src + n) n
  else copyUp m dst src n

/-- `memmove` of the user library, where `n` is signed: a loop `while(n-- > 0)` has no round if `n`
is negative. -/
def Ulib.memmove (m : Mem) (dst src n : Int) : Mem :=
  if src > dst then copyUp m dst src n.toNat else copyDown m (dst + n) (src + n) n.toNat

/-- All bytes are copied at once. -/
def moved (m : Mem) (d s : Int) (n : Nat) : Mem :=
  fun a => if d ≤ a ∧ a < d + n then m (s + (a - d)) else m a

variable {m : Mem} {d s : Int} {n : Nat}

theorem copyUp_eq (h : ¬(s < d ∧ d < s + n)) : copyUp m d s n = moved m d s n := by
  induction n generalizing m d s with
  | zero => exact funext fun a => (if_neg (by omega)).symm
  | succ n ih =>
    rw [copyUp, ih (by omega)]
    funext a
    unfold moved
    by_cases ha : a = d
    · rw [if_neg (by omega), if_pos (by omega), ha, update_self, Int.sub_self, Int.add_zero]
    rw [update_of_ne ha]
    by_cases hin : d + 1 ≤ a ∧ a < d + 1 + n
    · -- the byte read now is not one that the rounds before have written
      rw [if_pos hin, if_pos (by omega), update_of_ne (by omega)]
      congr 1
      omega
    · rw [if_neg hin, if_neg (by omega)]

theorem copyDown_eq (h : ¬(d < s ∧ s < d + n)) : copyDown m (d + n) (s + n) n = moved m d s n := by
  induction n generalizing m with
  | zero => exact funext fun a => (if_neg (by omega)).symm
  | succ n ih =>
    have hend (a : Int) : a + (n + 1 : Nat) - 1 = a + n := by omega
    rw [copyDown, hend, hend, ih (by omega)]
    funext a
    unfold moved
    by_cases ha : a = d + n
    · rw [if_neg (by omega), if_pos (by omega), ha, update_self, Int.add_comm d n,
        Int.add_sub_cancel]
    rw [update_of_ne ha]
    by_cases hin : d ≤ a ∧ a < d + n
    · rw [if_pos hin, if_pos (by omega), update_of_ne (by omega)]
    · rw [if_neg hin, if_neg (by omega)]

/-- Both functions copy all bytes at once, whatever the overlap, and so agree. -/
theorem memmove_simultaneous (m : Mem) (d s : Int) (n : Nat) (k : Int) :
    memmove m d s n = moved m d s n ∧ Ulib.memmove m d s k = moved m d s k.toNat ∧
      Ulib.memmove m d s n = memmove m d s n := by
  have hkernel : memmove m d s n = moved m d s n := by
    unfold memmove
    split_ifs with hn hdown
    · exact hn ▸ copyUp_eq (n := 0) (by omega)
    · exact copyDown_eq (by omega)
    · exact copyUp_eq hdown
  have hulib (k : Int) : Ulib.memmove m d s k = moved m d s k.toNat := by
    unfold Ulib.memmove
    split
    · exact copyUp_eq (by omega)
    · rcases Int.le_total k 0 with hk | hk
      · rw [Int.toNat_of_nonpos hk]
        exact copyUp_eq (n := 0) (by omega)
      · obtain ⟨k, rfl⟩ := Int.eq_ofNat_of_zero_le hk
        exact copyDown_eq (by omega)
  exact ⟨hkernel, hulib k, (hulib n).trans hkernel.symm⟩

end Xv6.Memmove
