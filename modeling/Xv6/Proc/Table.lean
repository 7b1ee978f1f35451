import Xv6.Lib.Concur

/-!
# Process table entries

`struct proc` as far as scheduling, `sleep`, `wakeup`, `kill`, `fork`, `exit` and `wait` use it, and
the critical sections of `p->lock` that several of them share. Channels are addresses of kernel
objects; which ones there are is a parameter.
-/

namespace Xv6

def NPROC : Nat := 64

/-- The index of an entry of `proc[NPROC]`. -/
abbrev Slot := Fin NPROC

theorem nproc_pos : 0 < NPROC := by decide

theorem one_lt_nproc : 1 < NPROC := by decide

inductive ProcState where
  | unused | used | sleeping | runnable | running | zombie
  deriving DecidableEq, Repr

structure Proc (Chan : Type) where
  state : ProcState
  chan : Option Chan
  killed : Bool
  xstate : BitVec 32
  pid : BitVec 32
  parent : Option Slot

namespace Proc

variable {Chan : Type}

/-- An entry of the table at boot, all zero. -/
def zero : Proc Chan := ⟨.unused, none, false, 0, 0, none⟩

/-- `SLEEPING` on `chan`. -/
def Sleeps (x : Proc Chan) (chan : Chan) : Prop := x.state = .sleeping ∧ x.chan = some chan

instance [DecidableEq Chan] (x : Proc Chan) (chan : Chan) : Decidable (x.Sleeps chan) :=
  inferInstanceAs (Decidable (_ ∧ _))

/-- `sleep` from its `acquire(&p->lock)` to `sched`. -/
def sleep (x : Proc Chan) (chan : Chan) : Proc Chan :=
  { x with chan := some chan, state := .sleeping }

/-- `sleep` after `sched` returns. -/
def awake (x : Proc Chan) : Proc Chan := { x with chan := none }

/-- The body of the loop of `wakeup`. -/
def wakeup [DecidableEq Chan] (x : Proc Chan) (chan : Chan) : Proc Chan :=
  if x.state = .sleeping ∧ x.chan = some chan then { x with state := .runnable } else x

/-- What `kill` does to the process it finds. -/
def kill (x : Proc Chan) : Proc Chan :=
  { x with killed := true, state := if x.state = .sleeping then .runnable else x.state }

/-- The scheduler runs a process, or a process yields. -/
inductive Sched : Proc Chan → Proc Chan → Prop
  | run {x : Proc Chan} (h : x.state = .runnable) : Sched x { x with state := .running }
  | yield {x : Proc Chan} (h : x.state = .running) : Sched x { x with state := .runnable }

variable {x y : Proc Chan} {chan chan' : Chan}

theorem not_sleeps_of_running (h : x.state = .running) : ¬x.Sleeps chan := by
  intro hs
  rw [hs.1] at h
  cases h

theorem not_sleeps_kill (x : Proc Chan) (chan : Chan) : ¬x.kill.Sleeps chan := by
  rintro ⟨hs, -⟩
  simp only [kill] at hs
  split at hs
  · cases hs
  · contradiction

theorem not_sleeps_wakeup [DecidableEq Chan] (x : Proc Chan) (chan : Chan) :
    ¬(x.wakeup chan).Sleeps chan := by
  intro h
  unfold wakeup at h
  split at h
  · cases h.1
  · contradiction

theorem Sleeps.of_wakeup [DecidableEq Chan] (h : (x.wakeup chan).Sleeps chan') :
    x.Sleeps chan' := by
  unfold wakeup at h
  split at h
  · cases h.1
  · exact h

theorem Sched.not_sleeps (h : x.Sched y) (chan : Chan) : ¬y.Sleeps chan := by
  intro hs
  cases h <;> cases hs.1

end Proc

end Xv6
