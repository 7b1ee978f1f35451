import Xv6.Basic
import Xv6.Lib.Prog
import Xv6.Pipe.Code

/-!
# User processes

Processes that run one program, any process at any time, and the system calls they make: `fork`,
`exit` and `wait`, descriptors, pipes, `open` and `exec`. A system call is one step, except that
`exit` closes one descriptor at a time and `write` to a pipe stops when the pipe is full.

A program is a family of blocks: a block ends with the label of the block to go on with, which is
how loops and recursion in tail position are written. Each process records the labels it has come
through, also before it was forked, and each pipe the labels of the process that made it.
-/

namespace Xv6.User

open Lib Function

/-- What a descriptor refers to. -/
inductive Obj where
  | console
  | file (path : List UInt8) (mode : Nat)
  | readEnd (pipe : Nat)
  | writeEnd (pipe : Nat)
  deriving DecidableEq, Repr

/-- `p->ofile`. -/
abbrev Table := Nat → Option Obj

inductive Sys where
  | fork
  | exit (status : Int)
  | wait
  | pipe
  | close (fd : Nat)
  | dup (fd : Nat)
  | «open» (path : List UInt8) (mode : Nat)
  | exec (argv : List (List UInt8))
  | read (fd n : Nat)
  | write (fd : Nat) (bs : List UInt8)

/-- Results: -1 or what the call returns; both descriptors of a pipe; the bytes that `read` has
read. -/
def Sys.Res : Sys → Type
  | exit _ => Empty
  | pipe => Option (Nat × Nat)
  | read _ _ => Option (List UInt8)
  | _ => Int

def iface : Iface := ⟨Sys, Sys.Res⟩

abbrev Code (α : Type) := Prog iface α

section

variable {α : Type}

def fork : Code Int := .call Sys.fork .ret
def exit (status : Int) : Code α := .call (Sys.exit status) Empty.elim
def wait : Code Int := .call Sys.wait .ret
def pipe : Code (Option (Nat × Nat)) := .call Sys.pipe .ret
def close (fd : Nat) : Code Int := .call (Sys.close fd) .ret
def dup (fd : Nat) : Code Int := .call (Sys.dup fd) .ret
def «open» (path : List UInt8) (mode : Nat) : Code Int := .call (Sys.open path mode) .ret
def exec (argv : List (List UInt8)) : Code Int := .call (Sys.exec argv) .ret
def read (fd n : Nat) : Code (Option (List UInt8)) := .call (Sys.read fd n) .ret
def write (fd : Nat) (bs : List UInt8) : Code Int := .call (Sys.write fd bs) .ret

/-- `putc` of `user/printf.c` for one byte after the other. -/
def puts (fd : Nat) : List UInt8 → Code Unit
  | [] => pure ()
  | c :: cs => do
    let _ ← write fd [c]
    puts fd cs

end

/-- What a process does: it runs the program, or the image of an `exec`, or it has exited and its
parent has not or has waited for it. -/
inductive Run (L : Type) where
  | code (x : Code L)
  | image (argv : List (List UInt8))
  | zombie
  | gone

structure Proc (L : Type) where
  run : Run L
  fds : Table
  parent : Option Nat
  trail : List L
  /-- How much of the current `write` is already in the pipe. -/
  sent : Nat

structure Pipe (L : Type) where
  data : List UInt8
  /-- The labels of the process that made it; `none` for pipes that were there before. -/
  maker : Option (List L)

structure State (L : Type) where
  procs : List (Proc L)
  pipes : List (Pipe L)
  out : List UInt8

/-- The lowest free descriptor. -/
def fdalloc (t : Table) : Option Nat := (List.range NOFILE).find? fun fd => (t fd).isNone

/-- The descriptor can be used. -/
def Table.get (t : Table) (fd : Nat) : Option Obj := if fd < NOFILE then t fd else none

/-- Both ends of pipe `i`. -/
def Table.addPipe (t : Table) (i fd₀ fd₁ : Nat) : Table :=
  update (update t fd₀ (some (.readEnd i))) fd₁ (some (.writeEnd i))

variable {L : Type}

namespace State

variable (s : State L)

def set (p : Nat) (x : Proc L) : State L := { s with procs := s.procs.set p x }

def setPipe (i : Nat) (data : List UInt8) : State L :=
  { s with pipes := s.pipes.modify i fun pi => { pi with data := data } }

def print (bs : List UInt8) : State L := { s with out := s.out ++ bs }

def addPipe (maker : List L) : State L := { s with pipes := s.pipes ++ [⟨[], some maker⟩] }

/-- Process `p` is `x` and runs `c`. -/
def Runs (p : Nat) (x : Proc L) (c : Code L) : Prop := s.procs[p]? = some x ∧ x.run = .code c

/-- Some descriptor refers to the object. -/
def Held (o : Obj) : Prop := ∃ x ∈ s.procs, ∃ fd, x.fds fd = some o

/-- Process `p` returns from its system call. -/
def resume (p : Nat) (x : Proc L) (c : Code L) : State L :=
  s.set p { x with run := .code c, sent := 0 }

/-- A new process, the last one. -/
def spawn (x : Proc L) : State L := { s with procs := s.procs ++ [x] }

end State

/-- One step of some process; with `ok = false` it is a `fork`, `pipe`, `open` or `exec` that fails.
-/
inductive Step (prog : L → Code L) : (ok : Bool) → State L → State L → Prop
  | jump {s p x l} (here : s.Runs p x (.ret l)) :
    Step prog true s (s.set p { x with run := .code (prog l), trail := l :: x.trail })
  | fork {s p x k} (here : s.Runs p x (.call Sys.fork k)) :
    Step prog true s
      ((s.resume p x (k (s.procs.length : Int))).spawn
        { x with run := .code (k (0 : Int)), parent := some p })
  | forkFail {s p x k} (here : s.Runs p x (.call Sys.fork k)) :
      Step prog false s (s.resume p x (k (-1 : Int)))
  -- `exit` closes the descriptors one by one
  | exitClose {s p x n k fd} (here : s.Runs p x (.call (Sys.exit n) k)) (isOpen : (x.fds fd).isSome)
    (first : ∀ i < fd, x.fds i = none) :
    Step prog true s (s.set p { x with fds := update x.fds fd none })
  | exit {s p x n k} (here : s.Runs p x (.call (Sys.exit n) k)) (closed : ∀ fd, x.fds fd = none) :
    Step prog true s (s.set p { x with run := .zombie })
  | wait {s p x k q y} (here : s.Runs p x (.call Sys.wait k)) (child : s.procs[q]? = some y)
      (mine : y.parent = some p)
    (zombie : y.run = .zombie) :
    Step prog true s ((s.set q { y with run := .gone }).resume p x (k (q : Int)))
  | waitNone {s p x k} (here : s.Runs p x (.call Sys.wait k))
    (none : ∀ y ∈ s.procs, y.parent = some p → y.run = .gone) :
    Step prog true s (s.resume p x (k (-1 : Int)))
  | pipe {s p x k fd₀ fd₁} (here : s.Runs p x (.call Sys.pipe k)) (read : fdalloc x.fds = some fd₀)
    (write : fdalloc (update x.fds fd₀ (some (.readEnd s.pipes.length))) = some fd₁) :
    Step prog true s
      ((s.addPipe x.trail).resume p { x with fds := x.fds.addPipe s.pipes.length fd₀ fd₁ }
      (k (some (fd₀, fd₁))))
  | pipeFail {s p x k} (here : s.Runs p x (.call Sys.pipe k)) :
      Step prog false s (s.resume p x (k (none : Option (Nat × Nat))))
  | close {s p x fd k o} (here : s.Runs p x (.call (Sys.close fd) k))
      (isOpen : x.fds.get fd = some o) :
    Step prog true s (s.resume p { x with fds := update x.fds fd none } (k (0 : Int)))
  | closeFail {s p x fd k} (here : s.Runs p x (.call (Sys.close fd) k))
      (closed : x.fds.get fd = none) :
    Step prog true s (s.resume p x (k (-1 : Int)))
  | dup {s p x fd k o fd'} (here : s.Runs p x (.call (Sys.dup fd) k))
      (isOpen : x.fds.get fd = some o)
    (free : fdalloc x.fds = some fd') :
    Step prog true s (s.resume p { x with fds := update x.fds fd' (some o) } (k (fd' : Int)))
  | dupFail {s p x fd k} (here : s.Runs p x (.call (Sys.dup fd) k))
      (fails : x.fds.get fd = none ∨ fdalloc x.fds = none) :
    Step prog true s (s.resume p x (k (-1 : Int)))
  | openFile {s p x path mode k fd} (here : s.Runs p x (.call (Sys.open path mode) k))
      (free : fdalloc x.fds = some fd) :
    Step prog true s (s.resume p { x with fds := update x.fds fd (some (.file path mode)) }
      (k (fd : Int)))
  | openFail {s p x path mode k} (here : s.Runs p x (.call (Sys.open path mode) k)) :
    Step prog false s (s.resume p x (k (-1 : Int)))
  | exec {s p x argv k} (here : s.Runs p x (.call (Sys.exec argv) k)) :
    Step prog true s (s.set p { x with run := .image argv })
  | execFail {s p x argv k} (here : s.Runs p x (.call (Sys.exec argv) k)) :
    Step prog false s (s.resume p x (k (-1 : Int)))
  -- the image may exit
  | imageClose {s p x argv fd} (here : s.procs[p]? = some x) (image : x.run = .image argv) :
    Step prog true s (s.set p { x with fds := update x.fds fd none })
  | imageExit {s p x argv} (here : s.procs[p]? = some x) (image : x.run = .image argv)
      (closed : ∀ fd, x.fds fd = none) :
    Step prog true s (s.set p { x with run := .zombie })
  -- `piperead` waits while the pipe is empty and may still be written
  | read {s p x fd n k i pi} (here : s.Runs p x (.call (Sys.read fd n) k))
      (isOpen : x.fds.get fd = some (.readEnd i))
    (pipe : s.pipes[i]? = some pi) (ready : pi.data ≠ [] ∨ ¬s.Held (.writeEnd i)) :
    Step prog true s ((s.setPipe i (pi.data.drop n)).resume p x (k (some (pi.data.take n))))
  | readOther {s p x fd n k o bs} (here : s.Runs p x (.call (Sys.read fd n) k))
      (isOpen : x.fds.get fd = some o)
    (other : ∀ i, o ≠ .readEnd i ∧ o ≠ .writeEnd i) (le : bs.length ≤ n) :
    Step prog true s (s.resume p x (k (some bs)))
  | readFail {s p x fd n k} (here : s.Runs p x (.call (Sys.read fd n) k))
    (closed : x.fds.get fd = none ∨ ∃ i, x.fds.get fd = some (.writeEnd i)) :
    Step prog true s (s.resume p x (k (none : Option (List UInt8))))
  -- `pipewrite` copies until it is done or the pipe is full
  | write {s p x fd bs k i pi} (here : s.Runs p x (.call (Sys.write fd bs) k))
    (isOpen : x.fds.get fd = some (.writeEnd i)) (pipe : s.pipes[i]? = some pi)
    (reader : x.sent < bs.length → s.Held (.readEnd i))
    (fits : bs.length - x.sent + pi.data.length ≤ PIPESIZE) :
    Step prog true s ((s.setPipe i (pi.data ++ bs.drop x.sent)).resume p x (k (bs.length : Int)))
  | writePart {s p x fd bs k i pi} (here : s.Runs p x (.call (Sys.write fd bs) k))
    (isOpen : x.fds.get fd = some (.writeEnd i)) (pipe : s.pipes[i]? = some pi)
    (reader : s.Held (.readEnd i))
    (room : pi.data.length < PIPESIZE) (full : PIPESIZE < bs.length - x.sent + pi.data.length) :
    Step prog true s
      ((s.setPipe i (pi.data ++ (bs.drop x.sent).take (PIPESIZE - pi.data.length))).set p
      { x with sent := x.sent + (PIPESIZE - pi.data.length) })
  | writeBroken {s p x fd bs k i} (here : s.Runs p x (.call (Sys.write fd bs) k))
    (isOpen : x.fds.get fd = some (.writeEnd i)) (more : x.sent < bs.length)
    (reader : ¬s.Held (.readEnd i)) :
    Step prog true s (s.resume p x (k (-1 : Int)))
  | writeConsole {s p x fd bs k} (here : s.Runs p x (.call (Sys.write fd bs) k))
      (isOpen : x.fds.get fd = some .console) :
    Step prog true s ((s.print bs).resume p x (k (bs.length : Int)))
  | writeFile {s p x fd bs k path mode r} (here : s.Runs p x (.call (Sys.write fd bs) k))
    (isOpen : x.fds.get fd = some (.file path mode)) : Step prog true s (s.resume p x (k (r : Int)))
  | writeFail {s p x fd bs k} (here : s.Runs p x (.call (Sys.write fd bs) k))
    (closed : x.fds.get fd = none ∨ ∃ i, x.fds.get fd = some (.readEnd i)) :
    Step prog true s (s.resume p x (k (-1 : Int)))

end Xv6.User
