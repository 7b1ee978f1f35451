import Mathlib.Algebra.BigOperators.Group.Finset.Basic
import Mathlib.Algebra.Order.BigOperators.Group.Finset
import Mathlib.Algebra.Order.Group.Multiset
import Mathlib.Algebra.Order.Monoid.Defs

/-!
# Assertions about owned cells

An assertion speaks about a multiset of owned cells and their contents. Separating conjunction is
the product of a commutative monoid, ordered by entailment; that of a family is `∏`.
-/

namespace Xv6.Lib

open Function Multiset

/-- An assertion about the cells in `T`. The contents of other cells play no part. -/
@[ext]
structure Asrt (A V : Type) where
  holds : Multiset A → (A → V) → Prop
  frame : ∀ {T h h'}, holds T h → (∀ a ∈ T, h' a = h a) → holds T h'

namespace Asrt

variable {A V ι : Type} {P Q P' Q' : Asrt A V} {φ : Prop}

/-- Nothing is owned. -/
def emp : Asrt A V := ⟨fun T _ => T = 0, fun h _ => h⟩

/-- The cell `a`, whatever it holds. -/
def cell (a : A) : Asrt A V := ⟨fun T _ => T = {a}, fun h _ => h⟩

def cells (S : Multiset A) : Asrt A V := ⟨fun T _ => T = S, fun h _ => h⟩

/-- The cell `a` with content `v`. -/
def pts (a : A) (v : V) : Asrt A V where
  holds T h := T = {a} ∧ h a = v
  frame := fun ⟨hT, hv⟩ hf => ⟨hT, (hf _ (hT ▸ mem_singleton_self _)).trans hv⟩

/-- The cells `S` with the contents `c`. -/
def exactly (S : Multiset A) (c : A → V) : Asrt A V where
  holds T h := T = S ∧ ∀ a ∈ S, h a = c a
  frame := fun ⟨hT, hc⟩ hf => ⟨hT, fun a ha => (hf a (hT ▸ ha)).trans (hc a ha)⟩

/-- The cells of `P` and, apart from them, those of `Q`. -/
def sep (P Q : Asrt A V) : Asrt A V where
  holds T h := ∃ T₁ T₂, T = T₁ + T₂ ∧ P.holds T₁ h ∧ Q.holds T₂ h
  frame := by
    rintro T h h' ⟨T₁, T₂, rfl, hP, hQ⟩ hf
    exact ⟨T₁, T₂, rfl, P.frame hP fun a ha => hf a (mem_add.2 (.inl ha)),
      Q.frame hQ fun a ha => hf a (mem_add.2 (.inr ha))⟩

def ex (P : ι → Asrt A V) : Asrt A V where
  holds T h := ∃ i, (P i).holds T h
  frame := fun ⟨i, hi⟩ hf => ⟨i, (P i).frame hi hf⟩

/-- `P`, and the fact `φ`. -/
def given (φ : Prop) (P : Asrt A V) : Asrt A V where
  holds T h := φ ∧ P.holds T h
  frame := fun ⟨hφ, hP⟩ hf => ⟨hφ, P.frame hP hf⟩

/-! ## Order and product -/

instance : PartialOrder (Asrt A V) where
  le P Q := ∀ T h, P.holds T h → Q.holds T h
  le_refl _ _ _ h := h
  le_trans _ _ _ h h' T m hp := h' T m (h T m hp)
  le_antisymm _ _ h h' := Asrt.ext (funext₂ fun T m => propext ⟨h T m, h' T m⟩)

instance : Mul (Asrt A V) := ⟨sep⟩
instance : One (Asrt A V) := ⟨emp⟩

variable {T : Multiset A} {h : A → V}

theorem holds_mul : (P * Q).holds T h ↔
    ∃ T₁ T₂, T = T₁ + T₂ ∧ P.holds T₁ h ∧ Q.holds T₂ h := Iff.rfl

theorem holds_one : (1 : Asrt A V).holds T h ↔ T = 0 := Iff.rfl

theorem mul_le_comm : P * Q ≤ Q * P := by
  rintro T h ⟨T₁, T₂, rfl, hP, hQ⟩
  exact ⟨T₂, T₁, add_comm .., hQ, hP⟩

theorem mul_le_assoc (R : Asrt A V) : P * Q * R ≤ P * (Q * R) := by
  rintro T h ⟨_, T₃, rfl, ⟨T₁, T₂, rfl, hP, hQ⟩, hR⟩
  exact ⟨T₁, T₂ + T₃, add_assoc .., hP, T₂, T₃, rfl, hQ, hR⟩

instance : CommMonoid (Asrt A V) where
  mul_comm _ _ := le_antisymm mul_le_comm mul_le_comm
  mul_assoc P Q R := by
    refine le_antisymm (mul_le_assoc R) ?_
    calc P * (Q * R) ≤ R * Q * P := by
          rintro T h ⟨T₁, _, rfl, hP, T₂, T₃, rfl, hQ, hR⟩
          exact ⟨T₃ + T₂, T₁, by rw [add_comm T₃, add_comm], ⟨T₃, T₂, rfl, hR, hQ⟩, hP⟩
      _ ≤ R * (Q * P) := mul_le_assoc P
      _ ≤ P * Q * R := by
          rintro T h ⟨T₁, _, rfl, hR, T₂, T₃, rfl, hQ, hP⟩
          exact ⟨T₃ + T₂, T₁, by rw [add_comm T₃, add_comm], ⟨T₃, T₂, rfl, hP, hQ⟩, hR⟩
  one_mul P := by
    refine le_antisymm ?_ fun T h hP => ⟨0, T, (zero_add T).symm, rfl, hP⟩
    rintro T h ⟨_, T₂, rfl, rfl, hP⟩
    rwa [zero_add]
  mul_one P := by
    refine le_antisymm ?_ fun T h hP => ⟨T, 0, (add_zero T).symm, hP, rfl⟩
    rintro T h ⟨T₁, _, rfl, hP, rfl⟩
    rwa [add_zero]

instance : IsOrderedMonoid (Asrt A V) where
  mul_le_mul_left P Q hPQ R := by
    rintro T h ⟨T₁, T₂, rfl, hP, hR⟩
    exact ⟨T₁, T₂, rfl, hPQ _ _ hP, hR⟩

variable {a : A} {S : Multiset A}

theorem cells_cons : (cells (a ::ₘ S) : Asrt A V) = cell a * cells S := by
  refine le_antisymm ?_ ?_
  · exact fun T h hT => ⟨{a}, S, hT.trans (singleton_add a S).symm, rfl, rfl⟩
  · rintro _ h ⟨_, _, rfl, rfl, rfl⟩
    exact singleton_add a _

variable {c : A → V}

theorem exactly_le (h : P.holds S c) : exactly S c ≤ P := by
  rintro T h' ⟨rfl, hc⟩
  exact P.frame h hc

theorem exactly_add {S' : Multiset A} : exactly (S + S') c = exactly S c * exactly S' c := by
  refine le_antisymm ?_ ?_
  · rintro T h ⟨rfl, hc⟩
    exact ⟨S, S', rfl, ⟨rfl, fun a ha => hc a (mem_add.2 (.inl ha))⟩,
      rfl, fun a ha => hc a (mem_add.2 (.inr ha))⟩
  · rintro T h ⟨_, _, rfl, ⟨rfl, hc⟩, rfl, hc'⟩
    refine ⟨rfl, fun a ha => ?_⟩
    rcases mem_add.1 ha with ha | ha
    · exact hc a ha
    · exact hc' a ha

theorem cell_le_of_pts {v : V} : pts a v ≤ cell a := fun _ _ h => h.1

theorem ex_mul {P : ι → Asrt A V} : ex P * Q = ex fun i => P i * Q := by
  refine le_antisymm ?_ ?_
  · rintro T h ⟨T₁, T₂, rfl, ⟨i, hP⟩, hQ⟩
    exact ⟨i, T₁, T₂, rfl, hP, hQ⟩
  · rintro T h ⟨i, T₁, T₂, rfl, hP, hQ⟩
    exact ⟨T₁, T₂, rfl, ⟨i, hP⟩, hQ⟩

theorem given_mul : given φ P * Q = given φ (P * Q) := by
  refine le_antisymm ?_ ?_
  · rintro T h ⟨T₁, T₂, rfl, ⟨hφ, hP⟩, hQ⟩
    exact ⟨hφ, T₁, T₂, rfl, hP, hQ⟩
  · rintro T h ⟨hφ, T₁, T₂, rfl, hP, hQ⟩
    exact ⟨T₁, T₂, rfl, ⟨hφ, hP⟩, hQ⟩

theorem mul_given : P * given φ Q = given φ (P * Q) := by
  rw [mul_comm, given_mul, mul_comm]

theorem holds_prod {s : Finset ι} {P : ι → Asrt A V} :
    (∏ i ∈ s, P i).holds T h ↔ ∃ f : ι → Multiset A, T = ∑ i ∈ s, f i ∧
    ∀ i ∈ s, (P i).holds (f i) h := by
  classical
  induction s using Finset.induction_on generalizing T with
  | empty =>
    rw [Finset.prod_empty, holds_one]
    exact ⟨fun h => ⟨fun _ => 0, h, nofun⟩, fun ⟨_, h, _⟩ => h⟩
  | insert i s hi ih =>
    rw [Finset.prod_insert hi, holds_mul]
    constructor
    · rintro ⟨T₁, T₂, rfl, hP, hs⟩
      obtain ⟨f, rfl, hf⟩ := ih.1 hs
      refine ⟨update f i T₁, ?_, ?_⟩
      · rw [Finset.sum_insert hi, update_self]
        congr 1
        refine Finset.sum_congr rfl fun j hj => (update_of_ne ?_ ..).symm
        exact fun e => hi (e ▸ hj)
      · intro j hj
        rcases Finset.mem_insert.1 hj with rfl | hj
        · rwa [update_self]
        · rw [update_of_ne fun e : j = i => hi (e ▸ hj)]
          exact hf j hj
    · rintro ⟨f, rfl, hf⟩
      rw [Finset.sum_insert hi]
      exact ⟨f i, _, rfl, hf i (Finset.mem_insert_self i s),
        ih.2 ⟨f, rfl, fun j hj => hf j (Finset.mem_insert_of_mem hj)⟩⟩

end Asrt

end Xv6.Lib
