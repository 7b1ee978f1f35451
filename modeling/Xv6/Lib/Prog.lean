import Mathlib.Logic.Relation
import Mathlib.Tactic.Common

/-!
# Programs over an interface of operations

A program is a finite tree of operation calls (`Prog`): the code under verification is written
once in this monad and given a meaning by a *machine*, a partial function that executes one
operation on a state. `Prog.run` executes a program alone, `Prog.Wp` is its weakest
precondition, and `Prog.interp` replaces every operation by a program over a lower interface.
The interleaving of several programs is the subject of `Xv6.Lib.Concur`.
-/

namespace Xv6.Lib

/-- An interface: operations, each with the type of its result. -/
structure Iface where
  Op : Type
  Res : Op → Type

/-- Finite trees of operation calls. -/
inductive Prog (E : Iface) (α : Type) : Type where
  | ret (a : α) : Prog E α
  | call (o : E.Op) (k : E.Res o → Prog E α) : Prog E α

/-- The outcome of executing something: a result, an operation that has to wait, or a panic
that halts the machine. -/
inductive Outcome (ε β : Type) : Type where
  | ok (b : β)
  | blocked
  | panic (e : ε)
  deriving DecidableEq, Repr

namespace Prog

variable {E E' : Iface} {α β γ : Type}

def bind : Prog E α → (α → Prog E β) → Prog E β
  | .ret a, f => f a
  | .call o k, f => .call o fun r => (k r).bind f

instance : Monad (Prog E) where
  pure := .ret
  bind := bind

def isRet : Prog E α → Bool
  | .ret _ => true
  | .call .. => false

theorem eq_ret {x : Prog E Unit} (h : x.isRet = true) : x = .ret () := by
  cases x with
  | ret => rfl
  | call => cases h

/-- The program that performs one operation. -/
def perform (o : E.Op) : Prog E (E.Res o) := .call o .ret

@[simp] theorem pure_eq (a : α) : (pure a : Prog E α) = .ret a := rfl

@[simp] theorem bind_eq (x : Prog E α) (f : α → Prog E β) : x >>= f = x.bind f := rfl

@[simp] theorem ret_bind (a : α) (f : α → Prog E β) : (Prog.ret a).bind f = f a := rfl

@[simp] theorem call_bind (o : E.Op) (k : E.Res o → Prog E α) (f : α → Prog E β) :
    (Prog.call o k).bind f = .call o fun r => (k r).bind f := rfl

@[simp] theorem perform_bind (o : E.Op) (f : E.Res o → Prog E β) :
    (perform o).bind f = .call o f := rfl

@[simp] theorem bind_ret (x : Prog E α) : x.bind .ret = x := by
  induction x with
  | ret a => rfl
  | call o k ih => simp only [call_bind, ih]

theorem bind_assoc (x : Prog E α) (f : α → Prog E β) (g : β → Prog E γ) :
    (x.bind f).bind g = x.bind fun a => (f a).bind g := by
  induction x with
  | ret a => rfl
  | call o k ih => simp only [call_bind, ih]

/-- Replace every operation by a program over another interface. -/
def interp (h : (o : E.Op) → Prog E' (E.Res o)) : Prog E α → Prog E' α
  | .ret a => .ret a
  | .call o k => (h o).bind fun r => (k r).interp h

@[simp] theorem interp_ret (h : (o : E.Op) → Prog E' (E.Res o)) (a : α) :
    (Prog.ret a).interp h = .ret a := rfl

@[simp] theorem interp_call (h : (o : E.Op) → Prog E' (E.Res o)) (o : E.Op)
    (k : E.Res o → Prog E α) :
    (Prog.call o k).interp h = (h o).bind fun r => (k r).interp h := rfl

theorem interp_bind (h : (o : E.Op) → Prog E' (E.Res o)) (x : Prog E α) (f : α → Prog E β) :
    (x.bind f).interp h = (x.interp h).bind fun a => (f a).interp h := by
  induction x with
  | ret a => rfl
  | call o k ih => simp only [call_bind, interp_call, ih, bind_assoc]

/-- Every operation of the program, on every path, has property `P`. -/
def All (P : E.Op → Prop) : Prog E α → Prop
  | .ret _ => True
  | .call o k => P o ∧ ∀ r, (k r).All P

/-! ## Execution by a single process -/

section
variable {σ ε : Type} (exec : (o : E.Op) → σ → Outcome ε (E.Res o × σ))

/-- Execute a program without interference. -/
def run : Prog E α → σ → Outcome ε (α × σ)
  | .ret a, s => .ok (a, s)
  | .call o k, s =>
    match exec o s with
    | .ok (r, s') => (k r).run s'
    | .blocked => .blocked
    | .panic e => .panic e

/-- Weakest precondition: the run returns and ends in `Q`, or it stops in a tolerated way, with a
panic or because it has to wait (`none`). -/
def Wp (tol : Option ε → Prop) : Prog E α → (α → σ → Prop) → σ → Prop
  | .ret a, Q, s => Q a s
  | .call o k, Q, s =>
    match exec o s with
    | .ok (r, s') => (k r).Wp tol Q s'
    | .blocked => tol none
    | .panic e => tol (some e)

variable {exec} {tol : Option ε → Prop} {Q Q' : α → σ → Prop} {s s' : σ}

variable {x : Prog E α}

theorem wp_iff_run :
    x.Wp exec tol Q s ↔
      match x.run exec s with
      | .ok (a, s') => Q a s'
      | .blocked => tol none
      | .panic e => tol (some e) := by
  induction x generalizing s with
  | ret a => rfl
  | call o k ih =>
    simp only [Wp, run]
    cases exec o s with
    | ok b => exact ih b.1
    | blocked => rfl
    | panic e => rfl

variable {a : α}

theorem Wp.of_run (h : x.Wp exec tol Q s) (hr : x.run exec s = .ok (a, s')) :
    Q a s' := by
  rw [wp_iff_run, hr] at h
  exact h

/-- A run that may not stop in any other way returns. -/
theorem Wp.exists_run (h : x.Wp exec (fun _ => False) Q s) :
    ∃ a s', x.run exec s = .ok (a, s') ∧ Q a s' := by
  rw [wp_iff_run] at h
  split at h
  · exact ⟨_, _, ‹_›, h⟩
  · exact h.elim
  · exact h.elim

theorem Wp.mono (h : x.Wp exec tol Q s) (hQ : ∀ a s', Q a s' → Q' a s') :
    x.Wp exec tol Q' s := by
  rw [wp_iff_run] at h ⊢
  split at h <;> simp_all

theorem Wp.congr {y : Prog E α} (h : x.run exec s = y.run exec s) (hy : y.Wp exec tol Q s) :
    x.Wp exec tol Q s := by
  rw [wp_iff_run] at hy ⊢
  rw [h]
  exact hy

theorem Wp.of_run_ok (h : x.run exec s = .ok (a, s')) (hQ : Q a s') : x.Wp exec tol Q s := by
  rw [wp_iff_run, h]
  exact hQ

variable {e : ε}

theorem Wp.of_run_panic (h : x.run exec s = .panic e) (he : tol (some e)) :
    x.Wp exec tol Q s := by
  rw [wp_iff_run, h]
  exact he

theorem Wp.tol_of_run_panic (h : x.Wp exec tol Q s) (hr : x.run exec s = .panic e) :
    tol (some e) := by
  rw [wp_iff_run, hr] at h
  exact h

variable {o : E.Op}

theorem Wp.call {k : E.Res o → Prog E α}
    (ok : ∀ r s', exec o s = .ok (r, s') → (k r).Wp exec tol Q s')
    (blocked : exec o s = .blocked → tol none) (panic : ∀ e, exec o s = .panic e → tol (some e)) :
    (Prog.call o k).Wp exec tol Q s := by
  unfold Wp
  split
  · exact ok _ _ ‹_›
  · exact blocked ‹_›
  · exact panic _ ‹_›

variable {tol' : Option ε → Prop}

theorem Wp.weaken (h : x.Wp exec tol Q s)
    (ht : ∀ e, tol e → tol' e) : x.Wp exec tol' Q s := by
  rw [wp_iff_run] at h ⊢
  split at h
  · exact h
  · exact ht _ h
  · exact ht _ h

theorem Wp.and (h : x.Wp exec tol Q s)
    (h' : x.Wp exec tol' Q' s) :
    x.Wp exec tol (fun a s' => Q a s' ∧ Q' a s') s := by
  rw [wp_iff_run] at h h' ⊢
  split at h
  · rename_i hr
    rw [hr] at h'
    exact ⟨h, h'⟩
  · exact h
  · exact h

variable {f : α → Prog E β}

theorem wp_bind {Q : β → σ → Prop} :
    (x.bind f).Wp exec tol Q s ↔ x.Wp exec tol (fun a s' => (f a).Wp exec tol Q s') s := by
  induction x generalizing s with
  | ret a => rfl
  | call o k ih =>
    simp only [call_bind, Wp]
    cases exec o s with
    | ok b => exact ih b.1
    | blocked => rfl
    | panic e => rfl

/-- The rule of composition: what the first part guarantees suffices for the second. -/
theorem Wp.bind {Q' : β → σ → Prop}
    (h : x.Wp exec tol Q s) (hf : ∀ a s', Q a s' → (f a).Wp exec tol Q' s') :
    (x.bind f).Wp exec tol Q' s :=
  wp_bind.2 (h.mono hf)

theorem run_perform_bind {f : E.Res o → Prog E α} {r : E.Res o} (he : exec o s = .ok (r, s')) :
    ((perform o).bind f).run exec s = (f r).run exec s' := by
  simp only [perform_bind, run, he]

theorem run_perform_bind_panic {f : E.Res o → Prog E α} (he : exec o s = .panic e) :
    ((perform o).bind f).run exec s = .panic e := by
  simp only [perform_bind, run, he]

theorem run_bind :
    (x.bind f).run exec s =
      match x.run exec s with
      | .ok (a, s') => (f a).run exec s'
      | .blocked => .blocked
      | .panic e => .panic e := by
  induction x generalizing s with
  | ret a => rfl
  | call o k ih =>
    simp only [call_bind, run]
    cases exec o s with
    | ok b => exact ih b.1
    | blocked => rfl
    | panic e => rfl

/-- A run of a composition is a run of the first part and one of the second. -/
theorem run_bind_ok {b : β} {s'' : σ} (h : (x.bind f).run exec s = .ok (b, s'')) :
    ∃ a s', x.run exec s = .ok (a, s') ∧ (f a).run exec s' = .ok (b, s'') := by
  rw [run_bind] at h
  split at h
  · exact ⟨_, _, ‹_›, h⟩
  · cases h
  · cases h

end

end Prog

end Xv6.Lib
