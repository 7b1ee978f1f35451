import Mathlib.Data.List.Sort
import Mathlib.Data.Nat.Prime.Basic
import Mathlib.Order.Interval.Finset.Nat

/-!
# The sieve

A chain of filters: each one takes the first number it gets and lets through what this number does
not divide. When the chain is fed with `2, 3, ..., N`, the numbers taken are the primes up to `N` in
increasing order.
-/

namespace Xv6.Primes

open List

/-- What a filter that gets these numbers lets through. -/
def next : List Nat → List Nat
  | [] => []
  | p :: ns => ns.filter fun n => ¬p ∣ n

/-- What the `k`-th filter gets. -/
def stream (N : Nat) : Nat → List Nat
  | 0 => range' 2 (N - 1)
  | k + 1 => next (stream N k)

def primesUpTo (N : Nat) : List Nat := (range (N + 1)).filter fun n => n.Prime

theorem mem_primesUpTo {N p : Nat} : p ∈ primesUpTo N ↔ p.Prime ∧ p ≤ N := by
  rw [primesUpTo, mem_filter, mem_range, Nat.lt_succ_iff, decide_eq_true_iff, and_comm]

theorem sorted_primesUpTo (N : Nat) : (primesUpTo N).Pairwise (· < ·) :=
  pairwise_lt_range.filter _

theorem mem_take_primesUpTo {N k p q : Nat} (hp : (primesUpTo N)[k]? = some p) (hq : q.Prime) :
    q ∈ (primesUpTo N).take k ↔ q < p := by
  obtain ⟨hk, rfl⟩ := List.getElem?_eq_some_iff.mp hp
  have hsorted := List.pairwise_iff_getElem.mp (sorted_primesUpTo N)
  constructor
  · intro hmem
    obtain ⟨i, hi, rfl⟩ := mem_take_iff_getElem.mp hmem
    exact hsorted i k _ hk (by omega)
  · intro hlt
    have hle : q ≤ N := hlt.le.trans (mem_primesUpTo.mp (getElem_mem hk)).2
    obtain ⟨i, hi, rfl⟩ := getElem_of_mem (mem_primesUpTo.mpr ⟨hq, hle⟩)
    refine mem_take_iff_getElem.mpr ⟨i, ?_, rfl⟩
    have hik : i < k := by
      by_contra hge
      rcases Nat.lt_or_eq_of_le (Nat.le_of_not_lt hge) with hlt' | rfl
      · exact absurd (hsorted k i hk hi hlt') (by omega)
      · exact lt_irrefl _ hlt
    omega

/-- What is left of `2, 3, ..., N` after the first `k` primes. -/
def survives (N k n : Nat) : Bool := ∀ q ∈ (primesUpTo N).take k, ¬q ∣ n

theorem find_survives {N k : Nat} :
    (range' 2 (N - 1)).find? (survives N k) = (primesUpTo N)[k]? := by
  cases hp : (primesUpTo N)[k]? with
  | some p =>
    obtain ⟨hprime, hle⟩ := mem_primesUpTo.mp (mem_of_getElem? hp)
    have hrange : 2 ≤ p ∧ p < 2 + (N - 1) := ⟨hprime.two_le, by have := hprime.two_le; omega⟩
    refine find?_range'_eq_some.mpr ⟨?_, by simpa using hrange, ?_⟩
    · -- no smaller prime divides a prime
      simp only [survives, decide_eq_true_eq]
      intro q hmem hdvd
      have hq := (mem_primesUpTo.mp (mem_of_mem_take hmem)).1
      have hlt := (mem_take_primesUpTo hp hq).mp hmem
      exact absurd ((Nat.prime_dvd_prime_iff_eq hq hprime).mp hdvd) hlt.ne
    · -- a smaller number has a smaller prime factor
      intro n htwo hlt
      have hq := Nat.minFac_prime (show n ≠ 1 by omega)
      have hmem := (mem_take_primesUpTo hp hq).mpr ((Nat.minFac_le (by omega)).trans_lt hlt)
      simp only [survives, Bool.not_eq_true', decide_eq_false_iff_not]
      intro hall
      exact hall _ hmem (Nat.minFac_dvd n)
  | none =>
    have hk := getElem?_eq_none_iff.mp hp
    refine find?_eq_none.mpr fun n hn => ?_
    simp only [survives, take_of_length_le hk, decide_eq_true_eq]
    intro hall
    have hmem : 2 ≤ n ∧ n < 2 + (N - 1) := by simpa using hn
    have hq := Nat.minFac_prime (show n ≠ 1 by omega)
    have hle : n.minFac ≤ N := (Nat.minFac_le (by omega)).trans (by omega)
    exact hall _ (mem_primesUpTo.mpr ⟨hq, hle⟩) (Nat.minFac_dvd n)

theorem next_eq_filter {ns : List Nat} : next ns = ns.filter fun n => ∀ p ∈ ns.head?, ¬p ∣ n := by
  cases ns with
  | nil => rfl
  | cons p ns => simp [next]

theorem survives_succ (N k n : Nat) :
    survives N (k + 1) n = (decide (∀ p ∈ (primesUpTo N)[k]?, ¬p ∣ n) && survives N k n) := by
  simp only [survives, take_add_one, mem_append, Option.mem_toList, ← Bool.decide_and,
    decide_eq_decide]
  constructor
  · intro h
    exact ⟨fun q hq => h q (.inr hq), fun q hq => h q (.inl hq)⟩
  · intro ⟨hlast, hrest⟩ q hq
    exact hq.elim (hrest q) (hlast q)

/-- Each filter gets what the primes before it leave. -/
theorem stream_eq (N k : Nat) : stream N k = (range' 2 (N - 1)).filter (survives N k) := by
  induction k with
  | zero =>
    have hall : survives N 0 = fun _ => true := funext fun n => by simp [survives]
    rw [stream, hall, filter_true]
  | succ k ih =>
    rw [stream, next_eq_filter, ih, head?_filter, find_survives, filter_filter]
    exact congrArg (filter · _) (funext fun n => (survives_succ N k n).symm)

theorem head_stream (N k : Nat) : (stream N k).head? = (primesUpTo N)[k]? := by
  rw [stream_eq, head?_filter, find_survives]

theorem mem_stream {N k n : Nat} (h : n ∈ stream N k) : 2 ≤ n ∧ n ≤ N := by
  rw [stream_eq] at h
  have hrange : 2 ≤ n ∧ n < 2 + (N - 1) := by simpa using (mem_filter.mp h).1
  omega

end Xv6.Primes
