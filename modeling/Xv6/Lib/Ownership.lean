import Mathlib.Data.Set.Insert
import Mathlib.Tactic.Tauto

/-!
# Allocation and ownership

Resources are allocated, referenced from places and freed. Every resource in use is reserved, or
referenced from exactly one place, or in the hands of the running operation (`extra`): just
allocated and not referenced yet, or no longer referenced and not freed yet.
-/

namespace Xv6.Lib

open Function

variable {B P : Type}

structure Owns (used reserved : Set B) (ref : P → Option B) (extra : Set B) : Prop where
  inj : ∀ {p q b}, ref p = some b → ref q = some b → p = q
  ref_reserved : ∀ {p b}, ref p = some b → b ∉ reserved
  extra_reserved : ∀ {b}, b ∈ extra → b ∉ reserved
  extra_ref : ∀ {p b}, b ∈ extra → ref p ≠ some b
  used_iff : ∀ {b}, b ∈ used ↔ b ∈ reserved ∨ b ∈ extra ∨ ∃ p, ref p = some b

namespace Owns

variable {used reserved extra : Set B} {ref ref' : P → Option B} {b : B} {p : P}

theorem used_of_ref (h : Owns used reserved ref extra) (hp : ref p = some b) : b ∈ used :=
  h.used_iff.2 (.inr (.inr ⟨p, hp⟩))

theorem used_of_extra (h : Owns used reserved ref extra) (hb : b ∈ extra) : b ∈ used :=
  h.used_iff.2 (.inr (.inl hb))

theorem alloc (h : Owns used reserved ref extra) (hb : b ∉ used) :
    Owns (insert b used) reserved ref (insert b extra) where
  inj := h.inj
  ref_reserved := h.ref_reserved
  extra_reserved hc hr := by
    rcases hc with rfl | hc
    · exact hb (h.used_iff.2 (.inl hr))
    · exact h.extra_reserved hc hr
  extra_ref hc hp := by
    rcases hc with rfl | hc
    · exact hb (h.used_of_ref hp)
    · exact h.extra_ref hc hp
  used_iff := by
    intro c
    rw [Set.mem_insert_iff, Set.mem_insert_iff, h.used_iff]
    tauto

/-- A place that held nothing takes a resource. -/
theorem link [DecidableEq P] (h : Owns used reserved ref extra) (hb : b ∈ extra)
    (hp : ref p = none) :
    Owns used reserved (update ref p (some b)) (extra \ {b}) := by
  have cases_ref : ∀ {q c}, update ref p (some b) q = some c →
      q = p ∧ c = b ∨ q ≠ p ∧ ref q = some c := by
    intro q c hq
    by_cases hqp : q = p
    · subst hqp
      rw [update_self] at hq
      exact .inl ⟨rfl, (Option.some.inj hq).symm⟩
    · rw [update_of_ne hqp] at hq
      exact .inr ⟨hqp, hq⟩
  refine ⟨fun {q r c} hq hr => ?_, fun hq => ?_, fun hc => h.extra_reserved hc.1,
    fun {q c} hc hq => ?_, fun {c} => ?_⟩
  · rcases cases_ref hq with ⟨hqp, hc⟩ | ⟨-, hq⟩ <;> rcases cases_ref hr with ⟨hrp, hc'⟩ | ⟨-, hr⟩
    · exact hqp.trans hrp.symm
    · exact absurd (hc ▸ hr) (h.extra_ref hb)
    · exact absurd (hc' ▸ hq) (h.extra_ref hb)
    · exact h.inj hq hr
  · rcases cases_ref hq with ⟨-, rfl⟩ | ⟨-, hq⟩
    · exact h.extra_reserved hb
    · exact h.ref_reserved hq
  · rcases cases_ref hq with ⟨-, rfl⟩ | ⟨-, hq⟩
    · exact hc.2 rfl
    · exact h.extra_ref hc.1 hq
  · rw [h.used_iff]
    refine or_congr .rfl ⟨?_, ?_⟩
    · rintro (hc | ⟨q, hq⟩)
      · by_cases hcb : c = b
        · exact .inr ⟨p, by rw [update_self, hcb]⟩
        · exact .inl ⟨hc, hcb⟩
      · refine .inr ⟨q, ?_⟩
        rw [update_of_ne ?_]
        · exact hq
        · rintro rfl
          rw [hp] at hq
          cases hq
    · rintro (hc | ⟨q, hq⟩)
      · exact .inl hc.1
      · rcases cases_ref hq with ⟨-, rfl⟩ | ⟨-, hq⟩
        · exact .inl hb
        · exact .inr ⟨q, hq⟩

end Owns

end Xv6.Lib
