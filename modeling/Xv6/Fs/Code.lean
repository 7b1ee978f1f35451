import Xv6.Fs.State

/-!
# Blocks and inodes

The functions of `kernel/fs.c` below directories, as programs over the calls to the log and the
buffer cache and the operations on the inode table.
-/

namespace Xv6

open Lib List

/-- `IBLOCK(i, sb)`. -/
def Superblock.iblock (sb : Superblock) (inum : Nat) : Nat := inum / IPB + sb.inodestart

/-- `BBLOCK(b, sb)`. -/
def Superblock.bblock (sb : Superblock) (b : Nat) : Nat := b / BPB + sb.bmapstart

namespace Fs

abbrev FsProg := Prog (fsIface fsAux)

def call (o : FsCall fsAux) : FsProg o.Res := Prog.perform (E := fsIface fsAux) o

def aux (o : FsOp) : FsProg o.Res := call (.aux o)

def bread (dev blockno : Nat) : FsProg BufId := call (.bread dev blockno)

def brelse (bp : BufId) : FsProg Unit := call (.brelse bp)

def data (bp : BufId) : FsProg Block := call (.data bp)

def setData (bp : BufId) (d : Block) : FsProg Unit := call (.setData bp d)

def logWrite (bp : BufId) : FsProg Unit := call (.logWrite bp)

def panic (e : Panic) : FsProg α := .call (.aux (.panic e)) nofun

variable (sb : Superblock)

/-! ## Blocks -/

def bzero (dev bno : Nat) : FsProg Unit := do
  let bp ← bread dev bno
  setData bp .zero
  logWrite bp
  brelse bp

/-- The first free block of a block of the bitmap, the inner loop of `balloc`. -/
def freeBit (size b : Nat) (d : Block) : Option Nat :=
  (range (min BPB (size - b))).find? fun bi => !d.bit bi

/-- The outer loop of `balloc` from block `b` on. -/
def ballocFrom (dev : Nat) : (fuel b : Nat) → FsProg Nat
  | 0, _ => panic .ballocOutOfBlocks
  | fuel + 1, b =>
    if b < sb.size then do
      let bp ← bread dev (sb.bblock b)
      let d ← data bp
      match freeBit sb.size b d with
      | some bi =>
        setData bp (d.setBit bi)
        logWrite bp
        brelse bp
        bzero dev (b + bi)
        return b + bi
      | none =>
        brelse bp
        ballocFrom dev fuel (b + BPB)
    else panic .ballocOutOfBlocks

def balloc (dev : Nat) : FsProg Nat := ballocFrom sb dev (sb.size / BPB + 1) 0

/-! ## Inodes -/

def iupdate (ip : IId) : FsProg Unit := do
  let x : Inode ← aux (.inode ip)
  let bp ← bread x.dev (sb.iblock x.inum)
  let d ← data bp
  setData bp (d.setDinode (x.inum % IPB) x.dino)
  logWrite bp
  brelse bp

/-- `ip->addrs[k] = addr`. -/
def setAddr (ip : IId) (k : Fin (NDIRECT + 1)) (addr : Nat) : FsProg Unit := do
  let x : Inode ← aux (.inode ip)
  aux (.setDino ip (x.dino.setAddr k addr))

/-- `if((addr = ip->addrs[k]) == 0) ip->addrs[k] = addr = balloc(ip->dev);` -/
def bmapAddr (ip : IId) (k : Fin (NDIRECT + 1)) : FsProg Nat := do
  let x : Inode ← aux (.inode ip)
  if x.dino.addrs k = 0 then
    let addr ← balloc sb x.dev
    setAddr ip k addr
    return addr
  else return x.dino.addrs k

def bmap (ip : IId) (bn : Nat) : FsProg Nat :=
  if h : bn < NDIRECT then bmapAddr sb ip ⟨bn, Nat.lt_succ_of_lt h⟩
  else if bn - NDIRECT < NINDIRECT then do
    let j := bn - NDIRECT
    let ind ← bmapAddr sb ip (Fin.last NDIRECT)
    let x : Inode ← aux (.inode ip)
    let bp ← bread x.dev ind
    let a ← data bp
    if a.u32 (4 * j) = 0 then
      let addr ← balloc sb x.dev
      let a ← data bp
      setData bp (a.setU32 (4 * j) addr)
      logWrite bp
      brelse bp
      return addr
    else
      brelse bp
      return a.u32 (4 * j)
  else panic .bmapOutOfRange

/-! ## Contents -/

/-- A source of `either_copyin`: a user address, or the bytes at a kernel address. -/
inductive Src where
  | user (va : Nat)
  | kernel (bs : List UInt8)
  deriving DecidableEq, Repr

def Src.drop (m : Nat) : Src → Src
  | .user va => .user (va + m)
  | .kernel bs => .kernel (bs.drop m)

/-- Whether the copy succeeds, and the bytes that it moves. -/
def eitherCopyin (src : Src) (m : Nat) : FsProg (Bool × List UInt8) :=
  match src with
  | .user va => aux (.copyin va m)
  | .kernel bs => return (true, bs.take m)

/-- The loop of `writei`. The result is `tot` and `off` after it. -/
def writeiLoop (ip : IId) (n : Nat) : (fuel tot off : Nat) → Src → FsProg (Nat × Nat)
  | 0, tot, off, _ => return (tot, off)
  | fuel + 1, tot, off, src =>
    if tot < n then do
      let b ← bmap sb ip (off / BSIZE)
      let x : Inode ← aux (.inode ip)
      let bp ← bread x.dev b
      let m := min (n - tot) (BSIZE - off % BSIZE)
      let (ok, bs) ← eitherCopyin src m
      let d ← data bp
      call (.copyin ok bp (d.splice (off % BSIZE) bs))
      if !ok then
        brelse bp
        return (tot, off)
      else
        logWrite bp
        brelse bp
        writeiLoop ip n fuel (tot + m) (off + m) (src.drop m)
    else return (tot, off)

def writei (ip : IId) (src : Src) (off n : Nat) : FsProg Int := do
  let x : Inode ← aux (.inode ip)
  if x.dino.size < off ∨ (off + n) % 2 ^ 32 < off then return -1
  else if MAXFILE * BSIZE < off + n then return -1
  else
    let (tot, off) ← writeiLoop sb ip n n 0 off src
    let x : Inode ← aux (.inode ip)
    if x.dino.size < off then
      aux (.setDino ip { x.dino with size := off })
    iupdate sb ip
    return tot

end Fs

end Xv6
