import Xv6.Proc.Table
import Mathlib.Data.Fintype.Basic

/-!
# Process life cycle

`fork`, `exit`, `wait`, `kill` and user faults of `kernel/proc.c` and `kernel/trap.c`, taken apart
into the critical sections of `wait_lock` and of the `p->lock` of each process. `fork` holds the
lock of the new process from `allocproc` until the copy is done, so this is one section, with memory
that may run out. Other kernel code may let a process sleep on channels of its own.

The history numbers the processes in the order in which they were allocated, and records, latest
first, who forked whom, who exited, who reaped whom, which calls of `wait` failed, and the kills and
faults.
-/

namespace Xv6.Procs

open Lib Function

/-- The channels: `sleep(p, &wait_lock)` in `wait`, and those of other code. -/
inductive Chan where
  | proc (q : Slot)
  | other (n : Nat)
  deriving DecidableEq, Repr

/-- The address passed to `wait`. -/
inductive Addr where
  | null | mapped | unmapped
  deriving DecidableEq, Repr

inductive Event where
  -- the child got this pid
  | fork (parent child : Nat) (pid : BitVec 32)
  | exit (id : Nat) (pid status : BitVec 32)
  -- what the wait returned and stored
  | reap (waiter child : Nat) (pid status : BitVec 32)
  -- a wait that returns -1: whether its caller was killed then, and whether it had children
  | waitFailed (id : Nat) (addr : Addr) (killed children : Bool)
  | kill (pid : BitVec 32)
  | fault (id : Nat)
  deriving DecidableEq, Repr

structure St where
  proc : Slot → Proc Chan
  nextpid : BitVec 32
  waitLock : Option Slot
  id : Slot → Nat
  nextId : Nat
  -- who allocated the entry
  forker : Slot → Option Slot
  -- what the process has at the address that it passes to `wait`
  word : Slot → BitVec 32
  hist : List Event

/-- `initproc`. -/
def initproc : Slot := ⟨0, by decide⟩

namespace St

def setProc (s : St) (q : Slot) (x : Proc Chan) : St :=
  { s with proc := update s.proc q x }

def record (s : St) (e : Event) : St := { s with hist := e :: s.hist }

@[simp] theorem setProc_self (s : St) (q : Slot) (x : Proc Chan) : (s.setProc q x).proc q = x :=
  update_self ..

theorem setProc_of_ne {s : St} {q r : Slot} (h : r ≠ q) (x : Proc Chan) :
    (s.setProc q x).proc r = s.proc r :=
  update_of_ne h ..

theorem forall_setProc {s : St} {q : Slot} {x : Proc Chan}
    {P : Slot → Proc Chan → Prop} (hx : P q x)
    (h : ∀ r, r ≠ q → P r (s.proc r)) (r : Slot) : P r ((s.setProc q x).proc r) := by
  unfold setProc
  rcases eq_or_ne r q with rfl | hr
  · simpa using hx
  · simpa [hr] using h r hr

/-- `p` allocates the free entry `q` and fills it. -/
def allocate (s : St) (p q : Slot) : St :=
  { s with
    proc := update s.proc q { s.proc q with pid := s.nextpid, state := .used }
    nextpid := s.nextpid + 1
    id := update s.id q s.nextId
    nextId := s.nextId + 1
    forker := update s.forker q (some p)
    hist := .fork (s.id p) s.nextId s.nextpid :: s.hist }

/-- `p` exits. -/
def exit (s : St) (p : Slot) (status : BitVec 32) : St :=
  (s.setProc p { s.proc p with xstate := status, state := .zombie }).record
    (.exit (s.id p) (s.proc p).pid status)

/-- `p` reaps `q`: `copyout` of the exit status, unless `addr` is 0, and `freeproc(np)`. -/
def reap (s : St) (p q : Slot) (addr : Addr) : St :=
  { (s.setProc q .zero).record (.reap (s.id p) (s.id q) (s.proc q).pid (s.proc q).xstate) with
    word := if addr = .null then s.word else update s.word p (s.proc q).xstate }

/-- Some process has `p` as its parent. -/
def hasChild (s : St) (p : Slot) : Bool := decide (∃ q, (s.proc q).parent = some p)

end St

inductive Alloc where
  | busy | failed | done (pid : BitVec 32)
  deriving DecidableEq, Repr

inductive Reap where
  | alive | fault | reaped (pid : BitVec 32)
  deriving DecidableEq, Repr

inductive Op where
  -- `wait_lock`
  | acquire
  | release
  -- `allocproc` at one entry and, if it is free, `fork` up to `release(&np->lock)`
  | alloc (q : Slot) (memory : Bool)
  | parent (q : Slot)
  | setParent (q r : Slot)
  -- `np->state = RUNNABLE` in `fork`
  | setRunnable (q : Slot)
  | wakeup (q : Slot) (chan : Chan)
  -- the end of `exit`, from `acquire(&p->lock)` on
  | zombie (status : BitVec 32)
  -- the body of the loop of `wait` for a child
  | reap (q : Slot) (addr : Addr)
  | killed
  -- `wait` lets go of the lock and returns -1
  | waitFailed (addr : Addr)
  -- `sleep(chan, lk)` up to `sched`; in `wait`, `lk` is `wait_lock`
  | sleepWait
  | sleep (n : Nat)
  | awake
  -- the body of the loop of `kill`
  | kill (q : Slot) (pid : BitVec 32)
  -- `p->killed = 1` in `usertrap`
  | fault
  | panicInit
  -- out of fuel
  | stop

abbrev iface : Iface where
  Op := Op
  Res
    | .alloc .. => Alloc
    | .parent _ => Option Slot
    | .reap .. => Reap
    | .killed => Bool
    | .kill .. => Bool
    | _ => Unit

inductive Panic where
  | acquire | release | initExiting
  deriving DecidableEq, Repr

/-- One operation of the running process `p`. -/
def step (p : Slot) : (o : Op) → St → Outcome Panic (iface.Res o × St)
  | .acquire, s =>
    match s.waitLock with
    | none => .ok ((), { s with waitLock := some p })
    | some q => if q = p then .panic .acquire else .blocked
  | .release, s =>
    if s.waitLock = some p then .ok ((), { s with waitLock := none }) else .panic .release
  | .alloc q memory, s =>
    if (s.proc q).state = .unused then
      if memory then .ok (.done s.nextpid, s.allocate p q)
      else .ok (.failed, { s.setProc q .zero with nextpid := s.nextpid + 1 })
    else .ok (.busy, s)
  | .parent q, s => .ok ((s.proc q).parent, s)
  | .setParent q r, s => .ok ((), s.setProc q { s.proc q with parent := some r })
  | .setRunnable q, s => .ok ((), s.setProc q { s.proc q with state := .runnable })
  | .wakeup q chan, s => .ok ((), if q = p then s else s.setProc q ((s.proc q).wakeup chan))
  | .zombie status, s =>
    if s.waitLock = some p then .ok ((), { s.exit p status with waitLock := none })
    else .panic .release
  | .reap q addr, s =>
    if (s.proc q).state = .zombie then
      if addr = .unmapped then .ok (.fault, s)
      else .ok (.reaped (s.proc q).pid, s.reap p q addr)
    else .ok (.alive, s)
  | .killed, s => .ok ((s.proc p).killed, s)
  | .waitFailed addr, s =>
    if s.waitLock = some p then
      .ok ((), { s.record (.waitFailed (s.id p) addr (s.proc p).killed (s.hasChild p)) with
        waitLock := none })
    else .panic .release
  | .sleepWait, s =>
    if s.waitLock = some p then
      .ok ((), { s.setProc p ((s.proc p).sleep (.proc p)) with waitLock := none })
    else .panic .release
  | .sleep n, s => .ok ((), s.setProc p ((s.proc p).sleep (.other n)))
  | .awake, s => .ok ((), s.setProc p (s.proc p).awake)
  | .kill q pid, s =>
    if (s.proc q).pid = pid then .ok (true, (s.setProc q (s.proc q).kill).record (.kill pid))
    else .ok (false, s)
  | .fault, s => .ok ((), (s.setProc p { s.proc p with killed := true }).record (.fault (s.id p)))
  | .panicInit, _ => .panic .initExiting
  | .stop, _ => .blocked

def exec (p : Slot) (o : Op) (s : St) : Outcome Panic (iface.Res o × St) :=
  if (s.proc p).state = .running then step p o s else .blocked

/-! ## The code -/

abbrev Code (α : Type) := Prog iface α

def op (o : Op) : Code (iface.Res o) := Prog.perform (E := iface) o

def slots : List Slot := List.finRange NPROC

def wakeupFrom (chan : Chan) : List Slot → Code Unit
  | [] => pure ()
  | q :: qs => do
    op (.wakeup q chan)
    wakeupFrom chan qs

def wakeup (chan : Chan) : Code Unit := wakeupFrom chan slots

/-- The loop of `allocproc`, with what `fork` does before it lets go of the lock of the new process.
-/
def allocFrom (memory : Bool) : List Slot → Code (Option (Slot × BitVec 32))
  | [] => pure none
  | q :: qs => do
    let r : Alloc ← op (.alloc q memory)
    match r with
    | .busy => allocFrom memory qs
    | .failed => pure none
    | .done pid => pure (some (q, pid))

def fork (p : Slot) (memory : Bool) : Code (BitVec 32) := do
  let r ← allocFrom memory slots
  match r with
  | none => pure (-1)
  | some (np, pid) =>
    op .acquire
    op (.setParent np p)
    op .release
    op (.setRunnable np)
    pure pid

/-- The loop of `reparent`. -/
def reparentFrom (p : Slot) : List Slot → Code Unit
  | [] => pure ()
  | pp :: pps => do
    let parent : Option Slot ← op (.parent pp)
    if parent = some p then
      op (.setParent pp initproc)
      wakeup (.proc initproc)
      reparentFrom p pps
    else reparentFrom p pps

def exit (p : Slot) (status : BitVec 32) : Code Unit :=
  if p = initproc then op .panicInit
  else do
    op .acquire
    reparentFrom p slots
    let parent : Option Slot ← op (.parent p)
    match parent with
    | some r =>
      wakeup (.proc r)
      op (.zombie status)
    -- nobody sleeps on address 0
    | none => op (.zombie status)

inductive Scan where
  | fault
  | reaped (pid : BitVec 32)
  | none (havekids : Bool)

/-- The loop of `wait` over the table. -/
def scanFrom (p : Slot) (addr : Addr) : (havekids : Bool) → List Slot → Code Scan
  | havekids, [] => pure (.none havekids)
  | havekids, np :: nps => do
    let parent : Option Slot ← op (.parent np)
    if parent = some p then
      let r : Reap ← op (.reap np addr)
      match r with
      | .alive => scanFrom p addr true nps
      | .fault => pure .fault
      | .reaped pid => pure (.reaped pid)
    else scanFrom p addr havekids nps

def waitFail (addr : Addr) : Code (BitVec 32) := do
  op (.waitFailed addr)
  pure (-1)

/-- `wait` after its `acquire`. -/
def waitFrom (p : Slot) (addr : Addr) : (fuel : Nat) → Code (BitVec 32)
  | 0 => do
    op .stop
    pure (-1)
  | fuel + 1 => do
    let r ← scanFrom p addr false slots
    match r with
    | .fault => waitFail addr
    | .reaped pid =>
      op .release
      pure pid
    | .none false => waitFail addr
    | .none true =>
      let killed : Bool ← op .killed
      if killed then waitFail addr
      else
        op .sleepWait
        op .awake
        op .acquire
        waitFrom p addr fuel

def wait (p : Slot) (addr : Addr) (fuel : Nat) : Code (BitVec 32) := do
  op .acquire
  waitFrom p addr fuel

/-- The loop of `kill`. -/
def killFrom (pid : BitVec 32) : List Slot → Code (BitVec 32)
  | [] => pure (-1)
  | q :: qs => do
    let found : Bool ← op (.kill q pid)
    if found then pure 0 else killFrom pid qs

def kill (pid : BitVec 32) : Code (BitVec 32) := killFrom pid slots

/-- An unexpected trap from user space. -/
def usertrap (p : Slot) : Code Unit := do
  op .fault
  exit p (-1)

/-! ## The system -/

/-- What process `p` may call, and channels it may sleep on in other code. -/
inductive Call (p : Slot) : Code Unit → Prop
  | fork (memory : Bool) : Call p do
      let _ ← fork p memory
  | exit (status : BitVec 32) : Call p (exit p status)
  | wait (addr : Addr) (fuel : Nat) : Call p do
      let _ ← wait p addr fuel
  | kill (pid : BitVec 32) : Call p do
      let _ ← kill pid
  | usertrap : Call p (usertrap p)
  | sleep (n : Nat) : Call p do
      op (.sleep n)
      op .awake
  | wakeup (n : Nat) : Call p (wakeup (.other n))

/-- The runs whose operations all meet `guard`. A process gets on with a call only while it runs. -/
def system (guard : Slot → Op → St → Prop) : System iface St Panic Slot where
  exec := exec
  guard := guard
  calls p _ := Call p
  env s s' := ∃ q x, (s.proc q).Sched x ∧ s' = s.setProc q x

/-- After `userinit`. -/
def boot : Config iface St Slot where
  st :=
    { proc := update (fun _ => .zero) initproc { Proc.zero with state := .runnable, pid := 1 }
      nextpid := 2
      waitLock := none
      id := fun _ => 0
      nextId := 1
      forker := fun _ => none
      word := fun _ => 0
      hist := [] }
  prog _ := .ret ()

/-- The scheduler runs `q`. -/
def run (q : Slot) : Move iface St Slot :=
  .env fun s =>
    if (s.proc q).state = .runnable then some (s.setProc q { s.proc q with state := .running })
      else none

theorem legal_run {guard : Slot → Op → St → Prop} (q : Slot) : (run q).Legal (system guard) := by
  intro s s' h
  beta_reduce at h
  split at h
  · cases h
    exact ⟨q, _, .run ‹_›, rfl⟩
  · cases h

theorem reaches_of_play {guard : Slot → Op → St → Prop} (ms : List (Move iface St Slot))
    (allow : Slot → Op → St → Bool) {P : Config iface St Slot → Prop} [DecidablePred P]
    (hms : ∀ m ∈ ms, m.Legal (system guard)) (hallow : ∀ p o s, allow p o s = true → guard p o s)
    (h : (ms.foldlM (Move.play exec allow) boot).any (fun c => decide (P c)) = true) :
    ∃ c, (system guard).Reaches boot c ∧ P c := by
  obtain ⟨c, hc, hd⟩ := (Option.any_eq_true _ _).1 h
  exact ⟨c, Move.Legal.reaches (S := system guard) hms hallow hc, of_decide_eq_true hd⟩

abbrev slot1 : Slot := ⟨1, by decide⟩

end Xv6.Procs
