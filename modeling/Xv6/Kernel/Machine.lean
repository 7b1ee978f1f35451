import Xv6.Layout
import Xv6.Log.Basic
import Xv6.Bio.Invariant
import Mathlib.Data.Finset.Card

/-!
# The log on top of the buffer cache

`kernel/log.c` as programs over an interface that extends the one of the buffer cache (`BioOp`) with
the critical sections under `log.lock` and the accesses to `log.lh` that `commit` and recovery make
without it. `log_write` is one operation: `bpin` runs inside its critical section. Everything else a
kernel may do beside the file system's buffers is a parameter (`Aux`).

The operations of the buffer cache carry the place in `log.c` they are called from; it has no effect
but on the history fields. These record the processes between `begin_op` and `end_op`, the process
that commits or recovers, how many pins `install_trans` has dropped, the block numbers passed to
`log_write`, and the contents each block had when it was last released. For the last commit that
began they record the home blocks after all groups committed before it (`base`), the blocks of its
group and the contents these had then, and whether its first `write_head` has reached the disk
(`headed`).
-/

namespace Xv6

open Lib Function

/-- The rest of the kernel: its state and its operations. -/
structure Aux where
  iface : Iface
  St : Type
  exec : Pid → (o : iface.Op) → St → Outcome Panic (iface.Res o × St)

/-- No other operations. -/
def Aux.none : Aux := ⟨⟨Empty, fun _ => Unit⟩, Unit, fun _ o => nomatch o⟩

/-- Where an operation on a buffer is called from. -/
inductive Site where
  | client
  -- the copy of `writei`, and whether `either_copyin` succeeded
  | copyin (ok : Bool)
  | log
  -- `write_log`: the cache block, the copy, the write to the log
  | logFrom (tail : Nat) | logCopy (tail : Nat) | logWrite (tail : Nat)
  -- the first `write_head` of `commit`
  | head
  -- `install_trans`: the write to the home block
  | install (tail : Nat)
  -- the `write_head` after `log.lh.n = 0`
  | erase
  deriving DecidableEq, Repr

inductive KOp (A : Aux) where
  | bio (site : Site) (o : BioOp)
  | logWrite (i : BufId)
  | beginOp
  -- the first critical section of `end_op`; the result is `do_commit`
  | endOp
  -- `log.committing = 0`
  | commitDone
  | lh
  | setLh (block : List Nat)
  -- the return of `initlog`
  | initDone
  | aux (o : A.iface.Op)

def KOp.Res {A : Aux} : KOp A → Type
  | .bio _ o => o.Res
  | .endOp => Bool
  | .lh => List Nat
  | .aux o => A.iface.Res o
  | _ => Unit

abbrev kIface (A : Aux) : Iface := ⟨KOp A, KOp.Res⟩

structure Kernel (A : Aux) where
  bio : Bio
  log : Log
  aux : A.St
  inOp : Finset Pid
  committer : Option Pid
  up : Bool
  unpinned : Nat
  passed : List Nat
  left : Nat → Block
  atCommit : Nat → Block
  base : Nat → Block
  group : List Nat
  headed : Bool

namespace Kernel

variable {A : Aux}

def buf (s : Kernel A) (i : BufId) : Buf := s.bio.buf i

def disk (s : Kernel A) : Nat → Block := s.bio.disk

/-- Buffer `i` is the cached copy of block `b`. -/
def Caches (s : Kernel A) (i : BufId) (b : Nat) : Prop :=
  (s.buf i).dev = ROOTDEV ∧ (s.buf i).blockno = b

instance (s : Kernel A) (i : BufId) (b : Nat) : Decidable (s.Caches i b) :=
  inferInstanceAs (Decidable (_ ∧ _))

/-- The contents of block `b`: the cached copy if there is one. -/
def contents (s : Kernel A) (b : Nat) : Block :=
  match (List.finRange NBUF).find? fun i => s.Caches i b with
  | some i => (s.buf i).data
  | none => s.disk b

/-- `base` with the blocks of a group replaced. -/
def overlay (base group : Nat → Block) (block : List Nat) : Nat → Block :=
  fun b => if b ∈ block then group b else base b

/-- The home blocks after all committed groups, the last one included as soon as its header is on
disk. -/
def spec (s : Kernel A) : Nat → Block :=
  if s.headed then overlay s.base s.atCommit s.group else s.base

/-- The state after a power-up on a given disk, before `initlog`. Process 0 recovers. -/
def boot (sb : Superblock) (disk base : Nat → Block) (aux : A.St) : Kernel A where
  bio := .boot disk
  log := .init sb.nlog
  aux := aux
  inOp := ∅
  committer := some 0
  up := false
  unpinned := 0
  passed := []
  left := disk
  atCommit := disk
  base := base
  group := []
  headed := false

/-- The history of an operation on the buffer cache, in the state `s` before it. -/
def record (site : Site) (o : BioOp) (s : Kernel A) : Kernel A :=
  match site, o with
  | _, .releasesleep i =>
    { s with left := update s.left (s.buf i).blockno (s.buf i).data }
  | .head, .bwrite _ => { s with headed := true }
  | _, .bunpin _ => { s with unpinned := s.unpinned + 1 }
  | _, _ => s

def exec (p : Pid) : (o : KOp A) → Kernel A → Outcome Panic (o.Res × Kernel A)
  | .bio site o, s =>
    match Bio.exec p o s.bio with
    | .ok (r, bio) => .ok (r, { s.record site o with bio })
    | .blocked => .blocked
    | .panic e => .panic e
  | .logWrite i, s =>
    let passed := s.passed ++ [(s.buf i).blockno]
    match s.log.write (s.buf i).blockno with
    | .error e => .panic e
    | .ok (log, false) => .ok ((), { s with log, passed })
    | .ok (log, true) => .ok ((), { s with
        log, passed
        bio := { s.bio with
          cache := s.bio.cache.bpin i, pins := update s.bio.pins i (s.bio.pins i + 1) } })
  | .beginOp, s =>
    if s.log.mustWait then .blocked
    else .ok ((), { s with log := s.log.beginOp, inOp := insert p s.inOp })
  | .endOp, s =>
    match s.log.endOp with
    | .error e => .panic e
    | .ok (log, false) => .ok (false, { s with log, inOp := s.inOp.erase p })
    | .ok (log, true) => .ok (true, { s with
        log, inOp := s.inOp.erase p, committer := some p, atCommit := s.contents, base := s.spec
        group := s.log.block, headed := false })
  | .commitDone, s => .ok ((), { s with log := s.log.commitDone, committer := none })
  | .lh, s => .ok (s.log.block, s)
  | .setLh block, s => .ok ((), { s with log := { s.log with block }, unpinned := 0 })
  | .initDone, s => .ok ((), { s with up := true, committer := none })
  | .aux o, s =>
    match A.exec p o s.aux with
    | .ok (r, aux) => .ok (r, { s with aux })
    | .blocked => .blocked
    | .panic e => .panic e

end Kernel

/-! ## The programs of `log.c` -/

namespace Kernel

variable {A : Aux}

def op (o : KOp A) : Prog (kIface A) o.Res := Prog.perform (E := kIface A) o

/-- A program of `bio.c`, called from `site`. -/
def bioAt (site : Site) (x : Prog bioIface α) : Prog (kIface A) α :=
  x.interp fun o => op (.bio site o)

def bread (site : Site) (dev blockno : Nat) : Prog (kIface A) BufId :=
  bioAt site (Bio.bread dev blockno)

def brelse (site : Site) (i : BufId) : Prog (kIface A) Unit := bioAt site (Bio.brelse i)

/-- `struct logheader` in a block: `n`, then `block[0 .. n)`. -/
def headBlocks (d : Block) : List Nat :=
  (List.range (d.u32 0)).map fun k => d.u32 (4 + 4 * k)

/-- `hb->n = log.lh.n`, then `hb->block[i] = log.lh.block[i]` for each `i`. -/
def putHead (d : Block) (block : List Nat) : Block :=
  block.zipIdx.foldl (fun d x => d.setU32 (4 + 4 * x.2) x.1) (d.setU32 0 block.length)

variable (sb : Superblock)

/-- The loop of `write_log` from `tail` on; `block` is `log.lh.block[tail .. n)`. -/
def writeLogFrom (tail : Nat) : List Nat → Prog (kIface A) Unit
  | [] => pure ()
  | b :: block => do
    let toBuf ← bread .log ROOTDEV (sb.logstart + tail + 1)
    let fromBuf ← bread (.logFrom tail) ROOTDEV b
    let d ← op (.bio (.logFrom tail) (.data fromBuf))
    op (.bio (.logCopy tail) (.setData toBuf d))
    op (.bio (.logWrite tail) (.bwrite toBuf))
    brelse .log fromBuf
    brelse .log toBuf
    writeLogFrom (tail + 1) block

def writeLog : Prog (kIface A) Unit := do
  let block ← op .lh
  writeLogFrom sb 0 block

def writeHead (site : Site) : Prog (kIface A) Unit := do
  let i ← bread .log ROOTDEV sb.logstart
  let block ← op .lh
  let d ← op (.bio .log (.data i))
  op (.bio .log (.setData i (putHead d block)))
  op (.bio site (.bwrite i))
  brelse .log i

/-- The loop of `install_trans` from `tail` on; `block` is `log.lh.block[tail .. n)`. -/
def installTransFrom (recovering : Bool) (tail : Nat) : List Nat → Prog (kIface A) Unit
  | [] => pure ()
  | b :: block => do
    let lbuf ← bread .log ROOTDEV (sb.logstart + tail + 1)
    let dbuf ← bread .log ROOTDEV b
    let d ← op (.bio .log (.data lbuf))
    op (.bio .log (.setData dbuf d))
    op (.bio (.install tail) (.bwrite dbuf))
    if !recovering then
      op (.bio .log (.bunpin dbuf))
    brelse .log lbuf
    brelse .log dbuf
    installTransFrom recovering (tail + 1) block

def installTrans (recovering : Bool) : Prog (kIface A) Unit := do
  let block ← op .lh
  installTransFrom sb recovering 0 block

def readHead : Prog (kIface A) Unit := do
  let i ← bread .log ROOTDEV sb.logstart
  let d ← op (.bio .log (.data i))
  op (.setLh (headBlocks d))
  brelse .log i

def recoverFromLog : Prog (kIface A) Unit := do
  readHead sb
  installTrans sb true
  op (.setLh [])
  writeHead sb .erase

def initlog : Prog (kIface A) Unit := do
  recoverFromLog sb
  op .initDone

def commit : Prog (kIface A) Unit := do
  let block ← op .lh
  if 0 < block.length then
    writeLog sb
    writeHead sb .head
    installTrans sb false
    op (.setLh [])
    writeHead sb .erase

def endOp : Prog (kIface A) Unit := do
  let doCommit : Bool ← op .endOp
  if doCommit then
    commit sb
    op .commitDone

end Kernel

/-! ## The calls that `fs.c` makes -/

/-- The calls of the file system. -/
inductive FsCall (A : Aux) where
  | bread (dev blockno : Nat)
  | brelse (i : BufId)
  | data (i : BufId)
  | setData (i : BufId) (d : Block)
  -- the data after `either_copyin`, which may have failed half-way
  | copyin (ok : Bool) (i : BufId) (d : Block)
  | logWrite (i : BufId)
  | beginOp
  | endOp
  | aux (o : A.iface.Op)

def FsCall.Res {A : Aux} : FsCall A → Type
  | .bread .. => BufId
  | .data _ => Block
  | .aux o => A.iface.Res o
  | _ => Unit

abbrev fsIface (A : Aux) : Iface := ⟨FsCall A, FsCall.Res⟩

/-- What a call runs. -/
def Kernel.impl {A : Aux} (sb : Superblock) : (o : FsCall A) → Prog (kIface A) o.Res
  | .bread dev blockno => bread .client dev blockno
  | .brelse i => brelse .client i
  | .data i => op (.bio .client (.data i))
  | .setData i d => op (.bio .client (.setData i d))
  | .copyin ok i d => op (.bio (.copyin ok) (.setData i d))
  | .logWrite i => op (.logWrite i)
  | .beginOp => op .beginOp
  | .endOp => endOp sb
  | .aux o => op (.aux o)

end Xv6
