import Xv6.Basic
import Xv6.Block
import Xv6.Pipe.Code
import Xv6.UserMem

/-!
# `sys_read`

`fileread` of `kernel/file.c` with its three back ends: `piperead`, `consoleread` and `readi`. One
process makes the call. Its locks keep others away except while it sleeps, and what others and the
interrupt handler have done to the pipe and to the console by the time it wakes up is part of the
state. The blocks of the file are there, as `readi` allocates none.

The history records the user addresses that the call has stored to. A loop that may sleep takes the
number of its iterations as fuel and stops executing for good when it has none left.
-/

namespace Xv6.Read

open Lib

def INPUT_BUF : Nat := 128
def CONSOLE : Nat := 1

instance : NeZero INPUT_BUF := ⟨by decide⟩

/-- `cons` of `console.c` without its lock and its edit index. -/
structure Console where
  buf : Fin INPUT_BUF → UInt8
  r : BitVec 32
  w : BitVec 32

/-- What others may change while the process sleeps. -/
structure World where
  pipe : Pipe
  cons : Console
  killed : Bool

/-- `struct file`, as far as `fileread` looks at it. -/
structure File where
  type : FileType
  readable : Bool
  off : Nat
  major : Nat
  deriving DecidableEq, Repr

structure St where
  mem : UserMem
  file : File
  -- the inode of the file
  size : Nat
  block : Nat → Block
  world : World
  -- the world each time that the process wakes up
  later : List World
  stored : List Nat

inductive Op where
  | file
  | setOff (off : Nat)
  | size
  -- `bread(ip->dev, bmap(ip, bn))`
  | block (bn : Nat)
  | copyout (va : Nat) (bs : List UInt8)
  | world
  -- `ch = pi->data[pi->nread++ % PIPESIZE]`
  | pipeTake
  -- `c = cons.buf[cons.r++ % INPUT_BUF]`
  | consTake
  -- `cons.r--`
  | consBack
  | sleep
  -- out of fuel
  | stop
  | panic (e : Panic)

@[reducible] def Op.Res : Op → Type
  | .file => File
  | .size => Nat
  | .block _ => Block
  | .copyout .. => Bool
  | .world => World
  | .pipeTake | .consTake => UInt8
  | .panic _ => Empty
  | _ => Unit

def iface : Iface := ⟨Op, Op.Res⟩

/-- The addresses that `copyout` of `len` bytes stores to: it moves as many bytes as `copyin` would.
-/
def reached (m : UserMem) (va len : Nat) : List Nat := List.range' va (m.copyin len va len).2.length

def exec : (o : Op) → St → Outcome Panic (o.Res × St)
  | .file, s => .ok (s.file, s)
  | .setOff off, s => .ok ((), { s with file.off := off })
  | .size, s => .ok (s.size, s)
  | .block bn, s => .ok (s.block bn, s)
  | .copyout va bs, s =>
    let (ok, mem) := s.mem.copyout bs.length va bs
    .ok (ok, { s with mem, stored := s.stored ++ reached s.mem va bs.length })
  | .world, s => .ok (s.world, s)
  | .pipeTake, s => .ok (s.world.pipe.next, { s with world.pipe := s.world.pipe.advance })
  | .consTake, s =>
    let c := s.world.cons
    .ok (c.buf (Ring.index INPUT_BUF c.r), { s with world.cons := { c with r := c.r + 1 } })
  | .consBack, s => .ok ((), { s with world.cons := { s.world.cons with r := s.world.cons.r - 1 } })
  | .sleep, s =>
    match s.later with
    | [] => .blocked
    | world :: later => .ok ((), { s with world, later })
  | .stop, _ => .blocked
  | .panic e, _ => .panic e

/-! ## The code -/

abbrev Code := Prog iface

def op (o : Op) : Code o.Res := Prog.perform (E := iface) o

def panic {α : Type} (e : Panic) : Code α := .call (E := iface) (.panic e) nofun

/-- An `int` as a `uint`. -/
def uint (n : Int) : Nat := (n % 2 ^ 32).toNat

/-- A `uint` as an `int`. -/
def int (n : Nat) : Int := if n % 2 ^ 32 < 2 ^ 31 then n % 2 ^ 32 else n % 2 ^ 32 - 2 ^ 32

/-- The copy loop of `piperead`, with `k` iterations to go. -/
def pipereadCopy (addr : Nat) : (k i : Nat) → Code Int
  | 0, i => return i
  | k + 1, i => do
    let w : World ← op .world
    if w.pipe.Empty then return i
    else
      let ch : UInt8 ← op .pipeTake
      let ok : Bool ← op (.copyout ((addr + i) % 2 ^ 64) [ch])
      if ok then pipereadCopy addr k (i + 1) else return i

/-- `piperead`. -/
def piperead (addr : Nat) (n : Int) : (fuel : Nat) → Code Int
  | 0 => do
    op .stop
    return -1
  | fuel + 1 => do
    let w : World ← op .world
    if w.pipe.Empty ∧ w.pipe.writeopen = true then
      if w.killed then return -1
      else
        op .sleep
        piperead addr n fuel
    else pipereadCopy addr n.toNat 0

/-- The inner loop of `consoleread`: whether there is input, and no reason to give up. -/
def awaitInput : (fuel : Nat) → Code Bool
  | 0 => do
    op .stop
    return false
  | fuel + 1 => do
    let w : World ← op .world
    if w.cons.r = w.cons.w then
      if w.killed then return false
      else
        op .sleep
        awaitInput fuel
    else return true

/-- `C('D')`. -/
def ctrlD : UInt8 := 4

def newline : UInt8 := 10

/-- The outer loop of `consoleread`, with `k` bytes to go; the result is what remains, or nothing if
the process was killed. -/
def consoleFrom (target : Nat) (fuel : Nat) : (k dst : Nat) → Code (Option Nat)
  | 0, _ => return some 0
  | k + 1, dst => do
    let ready ← awaitInput fuel
    if !ready then return none
    else
      let c : UInt8 ← op .consTake
      if c = ctrlD then
        if k + 1 < target then
          op .consBack
        return some (k + 1)
      else
        let ok : Bool ← op (.copyout (dst % 2 ^ 64) [c])
        if !ok then return some (k + 1)
        else if c = newline then return some k
        else consoleFrom target fuel k (dst + 1)

/-- `consoleread`. The loop is not entered unless `n` is positive. -/
def consoleread (fuel dst : Nat) (n : Int) : Code Int := do
  let rest ← consoleFrom (uint n) fuel n.toNat dst
  match rest with
  | none => return -1
  | some k => return int (uint n + 2 ^ 32 - uint (if 0 < n then k else n))

/-- The loop of `readi`, with `n` bytes to read in all. -/
def readiFrom (dst n : Nat) : (fuel tot off : Nat) → Code Int
  | 0, tot, _ => return int tot
  | fuel + 1, tot, off =>
    if tot < n then do
      let d : Block ← op (.block (off / BSIZE))
      let m := min (n - tot) (BSIZE - off % BSIZE)
      let ok : Bool ←
        op (.copyout ((dst + tot) % 2 ^ 64) ((List.range m).map fun k => d.get (off % BSIZE + k)))
      if !ok then return -1 else readiFrom dst n fuel (tot + m) (off + m)
    else return int tot

/-- `readi(ip, 1, dst, off, n)`. -/
def readi (dst off n : Nat) : Code Int := do
  let size : Nat ← op .size
  if size < off ∨ (off + n) % 2 ^ 32 < off then return 0
  else
    let n := if size < off + n then size - off else n
    readiFrom dst n n 0 off

def fileread (fuel addr : Nat) (n : Int) : Code Int := do
  let f : File ← op .file
  if f.readable = false then return -1
  else
    match f.type with
    | .pipe => piperead addr n fuel
    | .device => if f.major = CONSOLE then consoleread fuel addr n else return -1
    | .inode =>
      let r ← readi addr f.off (uint n)
      if 0 < r then
        op (.setOff ((f.off + r.toNat) % 2 ^ 32))
      return r
    | .none => panic .fileread

end Xv6.Read
