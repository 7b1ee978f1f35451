import Mathlib.Data.Nat.ModEq
import Mathlib.Logic.Function.Basic
import Mathlib.Tactic.Common

/-!
# Ring buffers with free-running counters

A queue in an array of `N` elements with two 32-bit counters that are never reduced: `r` counts the
elements taken out, `w` the elements put in, and the element numbered `c` lives at index `c % N`.
When `N` divides `2^32` the index survives the wrap of the counters. The queue holds the
`w - r` elements from `r` on (`contents`); `contents_push` and `contents_pop` are the two
operations.
-/

namespace Xv6.Lib.Ring

open Function List

variable {α : Type} {N : Nat} [NeZero N] {data : Fin N → α} {r w : BitVec 32}

/-- The array index of the element numbered `c`. -/
def index (N : Nat) [NeZero N] (c : BitVec 32) : Fin N := Fin.ofNat N c.toNat

/-- The number of elements in the queue. -/
def length (r w : BitVec 32) : Nat := (w - r).toNat

/-- The elements in the queue, in order. -/
def contents (data : Fin N → α) (r w : BitVec 32) : List α :=
  (range (length r w)).map fun k => data (index N (r + BitVec.ofNat 32 k))

@[simp] theorem length_contents : (contents data r w).length = length r w := by
  simp [contents]

@[simp] theorem length_self : length r r = 0 := by
  simp [length]

theorem length_eq_iff {n : Nat} (hn : n < 2 ^ 32) :
    length r w = n ↔ w = r + BitVec.ofNat 32 n := by
  unfold length
  constructor
  · intro h
    bv_omega
  · rintro rfl
    bv_omega

omit [NeZero N] in
theorem length_push (h : length r w < N) (hlt : N < 2 ^ 32) :
    length r (w + 1) = length r w + 1 := by
  unfold length at h ⊢
  bv_omega

theorem length_pop (h : r ≠ w) : length r w = length (r + 1) w + 1 := by
  unfold length
  bv_omega

theorem index_add (hN : N ∣ 2 ^ 32) (k : Nat) :
    index N (r + BitVec.ofNat 32 k) = Fin.ofNat N (r.toNat + k) := by
  ext
  simp only [index, Fin.val_ofNat, BitVec.toNat_add, BitVec.toNat_ofNat, Nat.add_mod_mod]
  exact Nat.mod_mod_of_dvd _ hN

theorem index_end (hN : N ∣ 2 ^ 32) : index N w = Fin.ofNat N (r.toNat + length r w) := by
  have h : w = r + BitVec.ofNat 32 (length r w) := (length_eq_iff (by unfold length; omega)).1 rfl
  rw [← index_add hN, ← h]

/-- The slot behind the last element holds none of the others. -/
theorem index_ne {k : Nat} (hN : N ∣ 2 ^ 32) (hk : k < length r w) (h : length r w < N) :
    index N (r + BitVec.ofNat 32 k) ≠ index N w := by
  rw [index_add hN, index_end (r := r) hN]
  intro e
  have e' : (r.toNat + k) % N = (r.toNat + length r w) % N := congrArg Fin.val e
  have hmod : k ≡ length r w [MOD N] := Nat.ModEq.add_left_cancel' _ e'
  have := Nat.ModEq.eq_of_lt_of_lt hmod (by omega) h
  omega

theorem contents_push (hN : N ∣ 2 ^ 32) (hlt : N < 2 ^ 32) (h : length r w < N) (a : α) :
    contents (update data (index N w) a) r (w + 1) = contents data r w ++ [a] := by
  have hend : r + BitVec.ofNat 32 (length r w) = w :=
    ((length_eq_iff (by omega)).1 rfl).symm
  unfold contents
  rw [length_push h hlt, range_succ, map_append, map_singleton, hend,
    update_self]
  congr 1
  refine map_congr_left fun k hk => ?_
  exact update_of_ne (index_ne hN (mem_range.1 hk) h) ..

theorem contents_pop (h : r ≠ w) :
    contents data r w = data (index N r) :: contents data (r + 1) w := by
  unfold contents
  rw [length_pop h, range_succ_eq_map, map_cons, map_map]
  congr 1
  · simp
  · refine map_congr_left fun k _ => ?_
    have : r + BitVec.ofNat 32 (k + 1) = r + 1 + BitVec.ofNat 32 k := by bv_omega
    simp only [comp_apply, Nat.succ_eq_add_one, this]

end Xv6.Lib.Ring
