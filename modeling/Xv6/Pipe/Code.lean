import Xv6.Lib.Ring
import Xv6.Proc.Table
import Xv6.UserMem

/-!
# Pipes

`kernel/pipe.c`: `piperead`, `pipewrite` and `pipeclose` on one pipe, run by any processes, with
`sleep` and `wakeup` taken apart into the critical sections of the `p->lock` of each process. A
process executes operations only while it is `RUNNING`. Between any two operations the scheduler may
run or preempt any process, any process may be killed, and any address space may change.

The history records the bytes `pipewrite` has accepted and the bytes `piperead` has stored to user
memory, both in order, how many of the copies of `piperead` have failed, and whether bytes were
stored since `pi->lock` was last acquired.

A loop that may sleep takes the number of its iterations as fuel and stops executing for good when
it has none left: a finite run makes finitely many iterations, so it is a run for some fuel.
-/

namespace Xv6

open Lib Function

def PIPESIZE : Nat := 512

instance : NeZero PIPESIZE := ⟨by decide⟩

/-- `struct pipe` without its lock. -/
structure Pipe where
  data : Fin PIPESIZE → UInt8
  nread : BitVec 32
  nwrite : BitVec 32
  readopen : Bool
  writeopen : Bool

namespace Pipe

/-- `pi->data[pi->nwrite++ % PIPESIZE] = ch`. -/
def put (pi : Pipe) (ch : UInt8) : Pipe :=
  { pi with
    data := update pi.data (Ring.index PIPESIZE pi.nwrite) ch
    nwrite := pi.nwrite + 1 }

/-- `pi->data[pi->nread % PIPESIZE]`. -/
def next (pi : Pipe) : UInt8 := pi.data (Ring.index PIPESIZE pi.nread)

/-- `pi->nread++`. -/
def advance (pi : Pipe) : Pipe := { pi with nread := pi.nread + 1 }

/-- The bytes between `nread` and `nwrite`. -/
def contents (pi : Pipe) : List UInt8 := Ring.contents pi.data pi.nread pi.nwrite

/-- `nwrite - nread`, modulo `2^32`. -/
def length (pi : Pipe) : Nat := Ring.length pi.nread pi.nwrite

/-- `pi->nwrite == pi->nread + PIPESIZE`. -/
abbrev Full (pi : Pipe) : Prop := pi.nwrite = pi.nread + BitVec.ofNat 32 PIPESIZE

/-- `pi->nread == pi->nwrite`. -/
abbrev Empty (pi : Pipe) : Prop := pi.nread = pi.nwrite

/-- What `pipealloc` makes. -/
def new (data : Fin PIPESIZE → UInt8) : Pipe := ⟨data, 0, 0, true, true⟩

/-! ## The machine -/

/-- `&pi->nread` and `&pi->nwrite`. -/
inductive Chan where
  | nread | nwrite
  deriving DecidableEq, Repr

structure St where
  pipe : Pipe
  lock : Option Slot
  proc : Slot → Proc Chan
  mem : Slot → UserMem
  accepted : List UInt8
  stored : List UInt8
  failed : Nat
  fresh : Bool

inductive Op where
  | acquire
  | release
  | pipe
  | killed
  | copyin (va : Nat)
  | copyout (va : Nat) (ch : UInt8)
  | put (ch : UInt8)
  -- `ch = pi->data[pi->nread++ % PIPESIZE]`
  | take
  | close (writable : Bool)
  -- `sleep(chan, &pi->lock)` up to `sched`, and from there to its `acquire(lk)`
  | sleep (chan : Chan)
  | awake
  | wakeup (q : Slot) (chan : Chan)
  -- out of fuel
  | stop

abbrev iface : Iface where
  Op := Op
  Res
    | .pipe => Pipe
    | .killed => Bool
    | .copyin _ => Option UInt8
    | .copyout .. => Bool
    | .take => UInt8
    | _ => Unit

/-- The panics of `spinlock.c`. -/
inductive LockPanic where
  | acquire | release
  deriving DecidableEq, Repr

/-- One operation of the running process `p`. -/
def step (p : Slot) : (o : Op) → St → Outcome LockPanic (iface.Res o × St)
  | .acquire, s =>
    match s.lock with
    | none => .ok ((), { s with lock := some p, fresh := false })
    | some q => if q = p then .panic .acquire else .blocked
  | .release, s =>
    if s.lock = some p then .ok ((), { s with lock := none }) else .panic .release
  | .pipe, s => .ok (s.pipe, s)
  | .killed, s => .ok ((s.proc p).killed, s)
  | .copyin va, s =>
    match (s.mem p).copyin 1 va 1 with
    | (true, [ch]) => .ok (some ch, s)
    | _ => .ok (none, s)
  | .copyout va ch, s =>
    match (s.mem p).copyout 1 va [ch] with
    | (true, m) =>
      .ok (true, { s with mem := update s.mem p m, stored := s.stored ++ [ch] })
    | (false, _) => .ok (false, { s with failed := s.failed + 1 })
  | .put ch, s =>
    .ok ((), { s with pipe := s.pipe.put ch, accepted := s.accepted ++ [ch], fresh := true })
  | .take, s => .ok (s.pipe.next, { s with pipe := s.pipe.advance })
  | .close true, s => .ok ((), { s with pipe.writeopen := false })
  | .close false, s => .ok ((), { s with pipe.readopen := false })
  | .sleep chan, s =>
    if s.lock = some p then
      .ok ((), { s with lock := none, proc := update s.proc p ((s.proc p).sleep chan) })
    else .panic .release
  | .awake, s => .ok ((), { s with proc := update s.proc p (s.proc p).awake })
  | .wakeup q chan, s =>
    if q = p then .ok ((), s)
    else .ok ((), { s with proc := update s.proc q ((s.proc q).wakeup chan) })
  | .stop, _ => .blocked

def exec (p : Slot) (o : Op) (s : St) : Outcome LockPanic (iface.Res o × St) :=
  if (s.proc p).state = .running then step p o s else .blocked

/-! ## The code -/

abbrev Code (α : Type) := Prog iface α

def op (o : Op) : Code (iface.Res o) := Prog.perform (E := iface) o

def wakeupFrom (chan : Chan) : List Slot → Code Unit
  | [] => pure ()
  | q :: qs => do
    op (.wakeup q chan)
    wakeupFrom chan qs

def wakeup (chan : Chan) : Code Unit := wakeupFrom chan (List.finRange NPROC)

/-- `sleep(chan, &pi->lock)`. -/
def sleep (chan : Chan) : Code Unit := do
  op (.sleep chan)
  op .awake
  op .acquire

def pipeclose (writable : Bool) : Code Unit := do
  op .acquire
  op (.close writable)
  wakeup (if writable then .nread else .nwrite)
  op .release

/-- The end of `pipewrite`, after its loop. -/
def pipewriteDone (i : Nat) : Code Int := do
  wakeup .nread
  op .release
  pure i

/-- The loop of `pipewrite`, having copied `i` bytes. -/
def pipewriteFrom (addr : Nat) (n : Int) : (fuel i : Nat) → Code Int
  | 0, _ => do
    op .stop
    pure (-1)
  | fuel + 1, i =>
    if i < n then do
      let pi : Pipe ← op .pipe
      if pi.readopen = false then
        op .release
        pure (-1)
      else
        let killed : Bool ← op .killed
        if killed then
          op .release
          pure (-1)
        else if pi.Full then
          wakeup .nread
          sleep .nwrite
          pipewriteFrom addr n fuel i
        else
          let ch : Option UInt8 ← op (.copyin ((addr + i) % 2 ^ 64))
          match ch with
          | none => pipewriteDone i
          | some ch =>
            op (.put ch)
            pipewriteFrom addr n fuel (i + 1)
    else pipewriteDone i

def pipewrite (fuel addr : Nat) (n : Int) : Code Int := do
  op .acquire
  pipewriteFrom addr n fuel 0

/-- The end of `piperead`, after its loops. -/
def pipereadDone (i : Nat) : Code Int := do
  wakeup .nwrite
  op .release
  pure i

/-- The copy loop of `piperead`, with `k` iterations to go. -/
def pipereadCopy (addr : Nat) : (k i : Nat) → Code Int
  | 0, i => pipereadDone i
  | k + 1, i => do
    let pi : Pipe ← op .pipe
    if pi.Empty then pipereadDone i
    else
      let ch : UInt8 ← op .take
      let ok : Bool ← op (.copyout ((addr + i) % 2 ^ 64) ch)
      if ok then pipereadCopy addr k (i + 1) else pipereadDone i

/-- `piperead` after its `acquire`. -/
def pipereadFrom (addr : Nat) (n : Int) : (fuel : Nat) → Code Int
  | 0 => do
    op .stop
    pure (-1)
  | fuel + 1 => do
    let pi : Pipe ← op .pipe
    if pi.Empty ∧ pi.writeopen = true then
      let killed : Bool ← op .killed
      if killed then
        op .release
        pure (-1)
      else
        sleep .nread
        pipereadFrom addr n fuel
    else pipereadCopy addr n.toNat 0

def piperead (fuel addr : Nat) (n : Int) : Code Int := do
  op .acquire
  pipereadFrom addr n fuel

/-! ## The system -/

/-- What a process may call. -/
inductive Call : Code Unit → Prop
  | read (fuel addr : Nat) (n : Int) : Call do
      let _ ← piperead fuel addr n
  | write (fuel addr : Nat) (n : Int) : Call do
      let _ ← pipewrite fuel addr n
  | close (writable : Bool) : Call (pipeclose writable)

/-- Steps from outside the pipe. -/
inductive Env : St → St → Prop
  | sched {s : St} {q : Slot} {x : Proc Chan} (h : (s.proc q).Sched x) :
      Env s { s with proc := update s.proc q x }
  | kill (s : St) (q : Slot) : Env s { s with proc := update s.proc q (s.proc q).kill }
  | mem (s : St) (q : Slot) (m : UserMem) : Env s { s with mem := update s.mem q m }

/-- The runs whose operations all meet `guard`. -/
def system (guard : Slot → Op → St → Prop) : System iface St LockPanic Slot where
  exec := exec
  guard := guard
  calls _ _ := Call
  env := Env

/-- A new pipe, used by processes that are awake. -/
structure St.Init (s : St) : Prop where
  pipe : ∃ data, s.pipe = .new data
  lock : s.lock = none
  awake : ∀ q chan, ¬(s.proc q).Sleeps chan
  accepted : s.accepted = []
  stored : s.stored = []
  failed : s.failed = 0

/-- Before any call. -/
structure Start (c : Config iface St Slot) : Prop where
  st : c.st.Init
  prog : ∀ p, c.prog p = .ret ()

end Pipe

end Xv6
