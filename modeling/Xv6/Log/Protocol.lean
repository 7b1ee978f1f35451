import Xv6.Log.Basic
import Mathlib.Data.Finset.Card

/-!
# The log protocol, with its lock, sleepers and wakeups

Any number of processes bracket their work with `begin_op` and `end_op`. One step is one
acquisition or release of `log.lock` with the part of the critical section that goes with it, one
part of `sleep` (under `p->lock`), one entry of the process table examined by `wakeup`, or one
step of `commit`, which runs without the lock. `kill` may make a sleeper runnable at any time.

The history fields `used` and `group` record the distinct block numbers that an operation and
that the current group (all operations since the last commit) passed to `log_write`; no step
reads them.
-/

namespace Xv6.Protocol

/-- Where a process is in `begin_op`, `sleep`, `log_write`, `end_op`, `commit` and `wakeup`. -/
inductive Pc where
  | user
  | beginAcquire | beginTest
  | sleepRelease | sleepSwitch | asleep
  | op
  | writeAcquire (b : Nat) | writeBody (b : Nat)
  | endAcquire | endBody | endWakeup (i : Nat)
  | commit | writeLog (tail : Nat) | writeHead | installTrans (tail : Nat) | clearHead | eraseHead
  | doneAcquire | doneBody | doneWakeup (i : Nat)
  deriving DecidableEq, Repr

structure Proc where
  pc : Pc
  -- `p->state == SLEEPING` and `p->chan == &log`
  sleeping : Bool
  -- `p->lock` is held
  locked : Bool
  deriving DecidableEq, Repr

structure St where
  log : Log
  lock : Option Nat
  proc : Nat → Proc
  panic : Option Panic
  used : Nat → Finset Nat
  group : Finset Nat

/-- What a process does next where it has a choice, and `kill` of the process. -/
inductive Act where
  | beginOp
  | logWrite (b : Nat)
  | endOp
  | tick
  | kill
  deriving DecidableEq, Repr

/-- The state after `initlog`. -/
def boot (size : Nat) : St where
  log := .init size
  lock := none
  proc := fun _ => ⟨.user, false, false⟩
  panic := none
  used := fun _ => ∅
  group := ∅

namespace St

def goto (s : St) (p : Nat) (pc : Pc) : St :=
  { s with proc := Function.update s.proc p { s.proc p with pc } }

/-- `if(p->state == SLEEPING && p->chan == &log) p->state = RUNNABLE`. -/
def wake (s : St) (i : Nat) : St :=
  { s with proc := Function.update s.proc i { s.proc i with sleeping := false } }

def acquire (s : St) (p : Nat) (pc : Pc) : Option St :=
  if s.lock = none then some { s.goto p pc with lock := some p } else none

/-- One round of the loop of `wakeup`, called by `p` with `log.lock` held: the entry of `p`
itself is skipped, and the lock of any other entry must be free. -/
def wakeupAt (s : St) (p i : Nat) (next : Pc) : Option St :=
  if i = p then some (s.goto p next)
  else if (s.proc i).locked then none
  else some ((s.wake i).goto p next)

end St

open St

/-- A step that involves no choice. `N` is the size of the process table. -/
def tick (N : Nat) (s : St) (p : Nat) : Option St :=
  match (s.proc p).pc with
  | .user | .op => none
  | .beginAcquire => s.acquire p .beginTest
  | .beginTest =>
    if s.log.mustWait then
      -- `sleep` takes `p->lock` before it lets go of `log.lock`
      some { s with
        proc := Function.update s.proc p { s.proc p with pc := .sleepRelease, locked := true } }
    else
      some { s.goto p .op with
        log := s.log.beginOp, lock := none, used := Function.update s.used p ∅ }
  | .sleepRelease => some { s.goto p .sleepSwitch with lock := none }
  | .sleepSwitch =>
    some { s with proc := Function.update s.proc p ⟨.asleep, true, false⟩ }
  | .asleep => if (s.proc p).sleeping then none else some (s.goto p .beginAcquire)
  | .writeAcquire b => s.acquire p (.writeBody b)
  | .writeBody b =>
    match s.log.write b with
    | .error e => some { s with panic := some e }
    | .ok (l, _) =>
      some { s.goto p .op with
        log := l, lock := none
        used := Function.update s.used p (insert b (s.used p)), group := insert b s.group }
  | .endAcquire => s.acquire p .endBody
  | .endBody =>
    match s.log.endOp with
    | .error e => some { s with panic := some e }
    | .ok (l, true) => some { s.goto p .commit with log := l, lock := none }
    | .ok (l, false) => some { s.goto p (.endWakeup 0) with log := l }
  | .endWakeup i =>
    if i < N then s.wakeupAt p i (.endWakeup (i + 1))
    else some { s.goto p .user with lock := none }
  -- `commit`, without the lock
  | .commit => some (s.goto p (if 0 < s.log.n then .writeLog 0 else .doneAcquire))
  | .writeLog tail => some (s.goto p (if tail < s.log.n then .writeLog (tail + 1) else .writeHead))
  | .writeHead => some (s.goto p (.installTrans 0))
  | .installTrans tail =>
    some (s.goto p (if tail < s.log.n then .installTrans (tail + 1) else .clearHead))
  | .clearHead => some { s.goto p .eraseHead with log := s.log.clear, group := ∅ }
  | .eraseHead => some (s.goto p .doneAcquire)
  | .doneAcquire => s.acquire p .doneBody
  | .doneBody => some { s.goto p (.doneWakeup 0) with log := s.log.commitDone }
  | .doneWakeup i =>
    if i < N then s.wakeupAt p i (.doneWakeup (i + 1))
    else some { s.goto p .user with lock := none }

/-- One step of process `p`. A machine that panicked is halted. -/
def step (N : Nat) (s : St) (p : Nat) (a : Act) : Option St :=
  if s.panic.isSome ∨ N ≤ p then none else
  match a, (s.proc p).pc with
  | .beginOp, .user => some (s.goto p .beginAcquire)
  | .logWrite b, .op => some (s.goto p (.writeAcquire b))
  | .endOp, .op => some (s.goto p .endAcquire)
  | .kill, _ => if (s.proc p).locked then none else some (s.wake p)
  | .tick, _ => tick N s p
  | _, _ => none

/-- The state after a schedule, if each of its steps is possible. -/
def exec (N : Nat) : List (Nat × Act) → St → Option St
  | [], s => some s
  | (p, a) :: sched, s => (step N s p a).bind (exec N sched)

/-- The states that some schedule reaches. -/
def Reaches (N : Nat) (s s' : St) : Prop := ∃ sched, exec N sched s = some s'

theorem Reaches.induct {N : Nat} {I : St → Prop} {s s' : St} (h : Reaches N s s') (init : I s)
    (stp : ∀ s p a s', I s → step N s p a = some s' → I s') : I s' := by
  obtain ⟨sched, h⟩ := h
  induction sched generalizing s with
  | nil => cases h; exact init
  | cons x xs ih =>
    simp only [exec, Option.bind_eq_some_iff] at h
    obtain ⟨s₁, hs, h⟩ := h
    exact ih (stp _ _ _ _ init hs) h

end Xv6.Protocol
