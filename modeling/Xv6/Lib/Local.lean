import Xv6.Lib.Concur
import Mathlib.Algebra.BigOperators.Pi
import Mathlib.Algebra.Order.BigOperators.Group.Finset
import Mathlib.Tactic.Abel

/-!
# Thread-local proofs

A process of an interleaved system knows part of the shared state: what it has locked, what it has
counted itself in, what nobody else can change. Such knowledge is a value of a type `Λ`, and `At p l
s` says that it is right. The rules of a `Protocol` say which operations a process may execute with
its knowledge and what it knows afterwards; `Does` is the judgment that a program follows the rules.
A `LocalProof` proves once for each rule that the operation keeps the invariant, that the rule tells
the truth and that the knowledge of the other processes stays right. A program is then verified with
its own knowledge only, as if it ran alone.

Auxiliary state (`System.withGhost`) does not change the runs of a system. A ledger is auxiliary
state that says how much of a quantity each process has.
-/

namespace Xv6.Lib

open Function Finset

variable {E : Iface} {σ γ ε P Λ α β : Type}

/-! ## Protocols -/

/-- Rules: with knowledge `l`, operation `o` may be executed and leads to a result and knowledge as
described. -/
def Protocol (E : Iface) (Λ : Type) := Λ → (o : E.Op) → (E.Res o → Λ → Prop) → Prop

variable (T : Protocol E Λ)

/-- The program follows the rules from `l` on and ends with `Q`. -/
def Does : Λ → Prog E α → (α → Λ → Prop) → Prop
  | l, .ret a, Q => Q a l
  | l, .call o k, Q => ∃ R, T l o R ∧ ∀ r l', R r l' → Does l' (k r) Q

namespace Does

variable {T} {l : Λ} {Q Q' : α → Λ → Prop}

theorem ret {a : α} (h : Q a l) : Does T l (.ret a) Q := h

theorem call {o : E.Op} {k : E.Res o → Prog E α} {R : E.Res o → Λ → Prop} (rule : T l o R)
    (next : ∀ r l', R r l' → Does T l' (k r) Q) : Does T l (.call o k) Q :=
  ⟨R, rule, next⟩

theorem mono {x : Prog E α} (h : Does T l x Q) (hQ : ∀ a l', Q a l' → Q' a l') :
    Does T l x Q' := by
  induction x generalizing l with
  | ret a => exact hQ _ _ h
  | call o k ih =>
    obtain ⟨R, rule, next⟩ := h
    exact ⟨R, rule, fun r l' hr => ih r (next r l' hr)⟩

theorem bind {Q' : β → Λ → Prop} {x : Prog E α} {f : α → Prog E β} (h : Does T l x Q)
    (hf : ∀ a l', Q a l' → Does T l' (f a) Q') : Does T l (x.bind f) Q' := by
  induction x generalizing l with
  | ret a => exact hf _ _ h
  | call o k ih =>
    obtain ⟨R, rule, next⟩ := h
    exact ⟨R, rule, fun r l' hr => ih r (next r l' hr)⟩

end Does

/-! ## Local proofs -/

/-- Knowledge `l` of `p` stays right, except that a process that has ended may be started again. -/
def Kept (At : P → Λ → σ → Prop) (Idle Ended : Λ → Prop) (p : P) (s s' : σ) : Prop :=
  ∀ l, At p l s → At p l s' ∨ Ended l ∧ ∃ l', Idle l' ∧ At p l' s'

/-- The proof that the rules of a protocol are sound for a system. -/
structure LocalProof (S : System E σ ε P) (T : Protocol E Λ) where
  Inv : σ → Prop
  At : P → Λ → σ → Prop
  Idle : Λ → Prop
  Ended : Λ → Prop
  Tol : ε → Prop
  live : ∀ {l o R}, T l o R → ¬Ended l
  step : ∀ {p o s r s' l R}, Inv s → S.guard p o s → At p l s → T l o R →
    S.exec p o s = .ok (r, s') →
    Inv s' ∧ (∃ l', R r l' ∧ At p l' s') ∧ ∀ q, q ≠ p → Kept At Idle Ended q s s'
  panic : ∀ {p o s e l R}, Inv s → S.guard p o s → At p l s → T l o R →
    S.exec p o s = .panic e → Tol e
  env : ∀ {s s'}, S.env s s' → Inv s → Inv s' ∧ ∀ p, Kept At Idle Ended p s s'

namespace LocalProof

variable {S : System E σ ε P} {T} (A : LocalProof S T)

/-- The rely of a process is that its knowledge stays right. -/
def outline : RelyGuarantee S where
  Inv := A.Inv
  Rely := Kept A.At A.Idle A.Ended
  Idle p s := ∃ l, A.Idle l ∧ A.At p l s
  Pre p o s := ∃ l R, A.At p l s ∧ T l o R
  Tol := A.Tol
  rely_refl _ _ _ h := .inl h
  rely_trans := by
    intro p s₁ s₂ s₃ h h' l hl
    obtain hl | ⟨hd, l', hi, hl'⟩ := h l hl
    · exact h' l hl
    · obtain hl' | ⟨-, hn⟩ := h' l' hl'
      · exact .inr ⟨hd, l', hi, hl'⟩
      · exact .inr ⟨hd, hn⟩
  idle_stable := by
    rintro p s s' h ⟨l, hl, hat⟩
    obtain hat' | ⟨-, hn⟩ := h l hat
    · exact ⟨l, hl, hat'⟩
    · exact hn
  op_ok := by
    rintro p o s r s' hI hg ⟨l, R, hat, rule⟩ he
    obtain ⟨hI', -, hothers⟩ := A.step hI hg hat rule he
    exact ⟨hI', hothers⟩
  op_panic := by
    rintro p o s e hI hg ⟨l, R, hat, rule⟩ he
    exact A.panic hI hg hat rule he
  env_ok h hI := A.env h hI

/-- A program that follows the rules is safe among the other processes. -/
theorem safe {p : P} {s : σ} {l : Λ} {Q : α → Λ → Prop} {x : Prog E α} (h : Does T l x Q)
    (hat : A.At p l s) : Safe A.outline p (fun a s' => ∃ l', Q a l' ∧ A.At p l' s') x s := by
  induction x generalizing l s with
  | ret a => exact ⟨l, h, hat⟩
  | call o k ih =>
    obtain ⟨R, rule, next⟩ := h
    intro s' hR hI hg
    have hat' := (hR l hat).resolve_right fun h => A.live rule h.1
    refine ⟨⟨l, R, hat', rule⟩, fun r s'' he => ?_⟩
    obtain ⟨-, ⟨l', hr, hat''⟩, -⟩ := A.step hI hg hat' rule he
    exact ih r (next r l' hr) hat''

variable {c c' : Config E σ P}

theorem start (inv : A.Inv c.st) (idle : ∀ p, c.prog p = .ret ())
    (known : ∀ p, ∃ l, A.Idle l ∧ A.At p l c.st) : c.Good A.outline :=
  ⟨inv, fun p => by rw [idle p]; exact known p⟩

variable [DecidableEq P]

/-- Soundness: if the programs of all calls follow the rules, every reachable configuration is good.
-/
theorem reaches
    (calls : ∀ {p s x l}, S.calls p s x → A.Idle l → A.At p l s →
      ∃ l', A.At p l' s ∧ Does T l' x fun _ => A.Idle)
    (h : c.Good A.outline) (hr : S.Reaches c c') : c'.Good A.outline := by
  refine h.reaches ?_ hr
  rintro p s x hx - ⟨l, hl, hat⟩
  obtain ⟨l', hat', hd⟩ := calls hx hl hat
  exact A.safe hd hat'

end LocalProof

/-! ## Auxiliary state -/

namespace System

variable (S : System E σ ε P) (next : P → (o : E.Op) → E.Res o → σ → σ → γ → γ)

/-- The system with an auxiliary state, which records what the operations do. -/
def withGhost : System E (σ × γ) ε P where
  exec p o s :=
    match S.exec p o s.1 with
    | .ok (r, s') => .ok (r, s', next p o r s.1 s' s.2)
    | .blocked => .blocked
    | .panic e => .panic e
  guard p o s := S.guard p o s.1
  calls p s x := S.calls p s.1 x
  env s s' := S.env s.1 s'.1 ∧ s'.2 = s.2

variable {S next}

theorem withGhost_ok {p : P} {o : E.Op} {s : σ × γ} {r : E.Res o} {t : σ × γ}
    (h : (S.withGhost next).exec p o s = .ok (r, t)) :
    S.exec p o s.1 = .ok (r, t.1) ∧ t.2 = next p o r s.1 t.1 s.2 := by
  simp only [withGhost] at h
  split at h
  · cases h
    exact ⟨‹_›, rfl⟩
  · cases h
  · cases h

theorem withGhost_panic {p : P} {o : E.Op} {s : σ × γ} {e : ε} :
    (S.withGhost next).exec p o s = .panic e ↔ S.exec p o s.1 = .panic e := by
  simp only [withGhost]
  split
  · simp [*]
  · simp [*]
  · simp [*]

variable [DecidableEq P] {c c' : Config E σ P}

/-- Every run is a run with the auxiliary state. -/
theorem Reaches.withGhost (h : S.Reaches c c') (g : γ) :
    ∃ g', (S.withGhost next).Reaches ⟨(c.st, g), c.prog⟩ ⟨(c'.st, g'), c'.prog⟩ := by
  induction h with
  | refl => exact ⟨g, .refl⟩
  | @tail c₁ c₂ _ hs ih =>
    obtain ⟨g₁, hr⟩ := ih
    cases hs with
    | @op p o k r s' prog allowed exec =>
      refine ⟨next p o r c₁.st s' g₁, hr.tail (.op prog allowed ?_)⟩
      simp only [System.withGhost, exec]
    | start idle call => exact ⟨g₁, hr.tail (.start idle call)⟩
    | @env s' step => exact ⟨g₁, hr.tail (.env ⟨step, rfl⟩)⟩

end System

/-! ## Ledgers -/

section Ledger

variable {ι A : Type} [AddCommGroup A] [Fintype ι] [DecidableEq ι]

theorem sum_update (φ : β → A) (F : ι → β) (i : ι) (x : β) :
    ∑ j, φ (update F i x j) = (∑ j, φ (F j)) + (φ x - φ (F i)) := by
  rw [← add_sum_erase _ _ (mem_univ i),
    ← add_sum_erase _ (fun j => φ (F j)) (mem_univ i), update_self]
  have : ∀ j ∈ univ.erase i, φ (update F i x j) = φ (F j) := fun j hj => by
    rw [update_of_ne (ne_of_mem_erase hj)]
  rw [sum_congr rfl this]
  abel

/-- What one participant gains is gained in total. -/
theorem sum_update_add (share : ι → A) (i : ι) (a : A) :
    ∑ j, update share i (share i + a) j = (∑ j, share j) + a := by
  have := sum_update (fun a : A => a) share i (share i + a)
  rwa [add_sub_cancel_left] at this

theorem sum_gain {κ : Type} {share share' : ι → κ → A} {i : ι} {gain : κ → A}
    (h : share' = update share i (share i + gain)) (k : κ) :
    ∑ j, share' j k = (∑ j, share j k) + gain k := by
  rw [h, ← Finset.sum_apply, sum_update_add, Pi.add_apply, Finset.sum_apply]

omit [Fintype ι] in
theorem gain_nonneg {κ : Type} {share share' : ι → κ → ℤ} {i : ι} {gain : κ → ℤ}
    (h : share' = update share i (share i + gain)) (nonneg : ∀ j k, 0 ≤ share j k)
    (self : ∀ k, 0 ≤ share i k + gain k) (j : ι) (k : κ) : 0 ≤ share' j k := by
  by_cases hj : j = i
  · subst hj
    rw [h, update_self]
    exact self k
  · rw [h, update_of_ne hj]
    exact nonneg j k

omit [Fintype ι] in
theorem gain_single_nonneg {κ : Type} [DecidableEq κ] {share share' : ι → κ → ℤ} {i : ι}
    {k : κ} {c : ℤ}
    (h : share' = update share i (share i + Pi.single k c)) (nonneg : ∀ j k, 0 ≤ share j k)
    (self : 0 ≤ share i k + c) : ∀ j k, 0 ≤ share' j k := by
  refine gain_nonneg h nonneg fun k' => ?_
  by_cases hk : k' = k
  · subst hk
    rwa [Pi.single_eq_same]
  · rw [Pi.single_eq_of_ne hk, add_zero]
    exact nonneg i k'

/-- What one participant gives to another one leaves the total alone. -/
theorem sum_transfer (share : ι → A) {i j : ι} (h : j ≠ i) (a : A) :
    ∑ k, update (update share i (share i - a)) j (share j + a) k = ∑ k, share k := by
  have h₁ := sum_update (fun a : A => a) (update share i (share i - a)) j (share j + a)
  have h₂ := sum_update (fun a : A => a) share i (share i - a)
  rw [update_of_ne h] at h₁
  rw [h₁, h₂]
  abel

omit [DecidableEq ι] in
theorem pair_le_sum {share : ι → ℤ} (nonneg : ∀ k, 0 ≤ share k) {i j : ι} (h : j ≠ i) :
    share j + share i ≤ ∑ k, share k := by
  classical
  have := sum_le_sum_of_subset_of_nonneg (f := share) (subset_univ {j, i}) fun k _ _ => nonneg k
  rwa [sum_pair h] at this

end Ledger

end Xv6.Lib
