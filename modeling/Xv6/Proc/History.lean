import Xv6.Proc.Code

/-!
# Lawful histories

What a process tree is for, as a law about histories alone: a child is new; only a forked process
exits, and once; a process is reaped after it exited, once, with its pid and its exit status, by the
process that forked it, or by init if that one has exited; and a `wait` that fails was killed, could
not store the status, or had nobody to wait for.
-/

namespace Xv6.Procs

open List

/-- The number of `initproc`. -/
def initId : Nat := 0

section

variable (hist : List Event)

def Exited (i : Nat) : Prop := ∃ pid status, .exit i pid status ∈ hist

def Reaped (i : Nat) : Prop := ∃ waiter pid status, .reap waiter i pid status ∈ hist

def Born (parent i : Nat) : Prop := ∃ pid, .fork parent i pid ∈ hist

end

/-- Process `i` has reaped somebody. -/
def Event.isReapBy (i : Nat) : Event → Bool
  | .reap waiter _ _ _ => waiter == i
  | _ => false

/-- Whom process `i` has reaped, latest first. -/
def reapsOf (i : Nat) (hist : List Event) : List Event := hist.filter (·.isReapBy i)

/-- `e` may come next in a run with history `hist`. -/
def Event.Ok (hist : List Event) : Event → Prop
  | .fork parent child _ => (∀ o, ¬Born hist o child) ∧ ¬Exited hist parent
  | .exit i pid _ => ¬Exited hist i ∧ ∃ o, .fork o i pid ∈ hist
  | .reap waiter child pid status =>
    .exit child pid status ∈ hist ∧ ¬Reaped hist child ∧
      (Born hist waiter child ∧ ¬Exited hist waiter ∨
        waiter = initId ∧ ∃ o, Born hist o child ∧ Exited hist o)
  | .waitFailed _ addr killed children => children = true → killed = true ∨ addr = .unmapped
  | .kill _ | .fault _ => True

def Lawful : List Event → Prop
  | [] => True
  | e :: hist => e.Ok hist ∧ Lawful hist

variable {hist : List Event} {e : Event} {i o : Nat}

theorem Exited.cons (h : Exited hist i) : Exited (e :: hist) i :=
  let ⟨pid, status, h⟩ := h
  ⟨pid, status, .tail _ h⟩

theorem Born.cons (h : Born hist o i) : Born (e :: hist) o i :=
  let ⟨pid, h⟩ := h
  ⟨pid, .tail _ h⟩

theorem exited_cons : Exited (e :: hist) i ↔ (∃ pid status, e = .exit i pid status) ∨
    Exited hist i := by
  simp only [Exited, mem_cons, exists_or]
  constructor <;> exact Or.imp (fun ⟨pid, st, h⟩ => ⟨pid, st, h.symm⟩) id

theorem reaped_cons :
    Reaped (e :: hist) i ↔ (∃ w pid status, e = .reap w i pid status) ∨ Reaped hist i := by
  simp only [Reaped, mem_cons, exists_or]
  constructor <;> exact Or.imp (fun ⟨w, pid, st, h⟩ => ⟨w, pid, st, h.symm⟩) id

theorem born_cons : Born (e :: hist) o i ↔ (∃ pid, e = .fork o i pid) ∨ Born hist o i := by
  simp only [Born, mem_cons, exists_or]
  constructor <;> exact Or.imp (fun ⟨pid, h⟩ => ⟨pid, h.symm⟩) id

end Xv6.Procs
