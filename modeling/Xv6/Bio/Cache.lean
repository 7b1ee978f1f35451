import Xv6.Basic
import Xv6.Block
import Xv6.Lib.LinkedRing
import Xv6.Lib.Concur

/-!
# The buffer cache

`kernel/bio.c`. A buffer is named by its index in `bcache.buf`, and a list pointer is a buffer or
`&bcache.head`. The critical sections under `bcache.lock` and the accesses to a sleep-lock are the
atomic operations of an interface (`BioOp`), over which `bread` and `brelse` are the programs of the
source. `virtio_disk_rw` goes by the block number alone.

The history fields `refs` and `pins` record, for each buffer, the processes that executed the
critical section of `bget` for it and not yet the one of `brelse`, and the calls of `bpin` that no
`bunpin` has undone.
-/

namespace Xv6

open Lib Function

abbrev Pid := Nat

abbrev BufId := Fin NBUF

instance : NeZero NBUF := ⟨by decide⟩

/-- `struct buf`, with the holder of its sleep-lock. -/
structure Buf where
  valid : Bool
  dev : Nat
  blockno : Nat
  refcnt : Nat
  owner : Option Pid
  data : Block

structure Bcache where
  buf : BufId → Buf
  ring : LinkedRing BufId

namespace Bcache

/-- `binit`: all buffers are zero, and each is linked in at the front in turn. -/
def init : Bcache where
  buf := fun _ => ⟨false, 0, 0, 0, none, .zero⟩
  ring := (List.finRange NBUF).foldl .pushFront .empty

def set (c : Bcache) (i : BufId) (b : Buf) : Bcache := { c with buf := update c.buf i b }

/-- The critical section of `bget`. -/
def bget (c : Bcache) (dev blockno : Nat) : Except Panic (BufId × Bcache) :=
  let cached (i : BufId) : Bool := (c.buf i).dev = dev ∧ (c.buf i).blockno = blockno
  match LinkedRing.find c.ring.next cached (NBUF + 1) (c.ring.next none) with
  | some i => .ok (i, c.set i { c.buf i with refcnt := (c.buf i).refcnt + 1 })
  | none =>
    -- recycle the least recently used buffer that is not in use
    let unused (i : BufId) : Bool := (c.buf i).refcnt = 0
    match LinkedRing.find c.ring.prev unused (NBUF + 1) (c.ring.prev none) with
    | some i => .ok (i, c.set i { c.buf i with dev, blockno, valid := false, refcnt := 1 })
    | none => .error .bgetNoBuffers

/-- The critical section of `brelse`. -/
def unref (c : Bcache) (i : BufId) : Bcache :=
  let c := c.set i { c.buf i with refcnt := (c.buf i).refcnt - 1 }
  if (c.buf i).refcnt = 0 then { c with ring := (c.ring.unlink i).pushFront i } else c

def bpin (c : Bcache) (i : BufId) : Bcache :=
  c.set i { c.buf i with refcnt := (c.buf i).refcnt + 1 }

def bunpin (c : Bcache) (i : BufId) : Bcache :=
  c.set i { c.buf i with refcnt := (c.buf i).refcnt - 1 }

end Bcache

inductive BioOp where
  | bget (dev blockno : Nat)
  | acquiresleep (i : BufId)
  -- `if(!b->valid) { virtio_disk_rw(b, 0); b->valid = 1; }`
  | load (i : BufId)
  | data (i : BufId)
  | setData (i : BufId) (d : Block)
  | bwrite (i : BufId)
  -- the check of `brelse` and its `releasesleep`
  | releasesleep (i : BufId)
  | unref (i : BufId)
  | bpin (i : BufId)
  | bunpin (i : BufId)

def BioOp.Res : BioOp → Type
  | .bget .. => BufId
  | .data _ => Block
  | _ => Unit

abbrev bioIface : Iface := ⟨BioOp, BioOp.Res⟩

structure Bio where
  cache : Bcache
  disk : Nat → Block
  refs : BufId → List Pid
  pins : BufId → Nat

namespace Bio

/-- The cache after `binit`. -/
def boot (disk : Nat → Block) : Bio := ⟨.init, disk, fun _ => [], fun _ => 0⟩

def buf (s : Bio) (i : BufId) : Buf := s.cache.buf i

def set (s : Bio) (i : BufId) (b : Buf) : Bio := { s with cache := s.cache.set i b }

def exec (p : Pid) : (o : BioOp) → Bio → Outcome Panic (o.Res × Bio)
  | .bget dev blockno, s =>
    match s.cache.bget dev blockno with
    | .ok (i, c) => .ok (i, { s with cache := c, refs := update s.refs i (p :: s.refs i) })
    | .error e => .panic e
  | .acquiresleep i, s =>
    if (s.buf i).owner = none then .ok ((), s.set i { s.buf i with owner := some p }) else .blocked
  | .load i, s =>
    if (s.buf i).valid then .ok ((), s)
    else .ok ((), s.set i { s.buf i with data := s.disk (s.buf i).blockno, valid := true })
  | .data i, s => .ok ((s.buf i).data, s)
  | .setData i d, s => .ok ((), s.set i { s.buf i with data := d })
  | .bwrite i, s =>
    if (s.buf i).owner = some p then
      .ok ((), { s with disk := update s.disk (s.buf i).blockno (s.buf i).data })
    else .panic .bwrite
  | .releasesleep i, s =>
    if (s.buf i).owner = some p then .ok ((), s.set i { s.buf i with owner := none })
    else .panic .brelse
  | .unref i, s =>
    .ok ((), { s with
      cache := s.cache.unref i, refs := update s.refs i ((s.refs i).erase p) })
  | .bpin i, s =>
    .ok ((), { s with cache := s.cache.bpin i, pins := update s.pins i (s.pins i + 1) })
  | .bunpin i, s =>
    .ok ((), { s with cache := s.cache.bunpin i, pins := update s.pins i (s.pins i - 1) })

/-! ## `bread` and `brelse` -/

def op (o : BioOp) : Prog bioIface o.Res := Prog.perform (E := bioIface) o

def bread (dev blockno : Nat) : Prog bioIface BufId := do
  let i ← op (.bget dev blockno)
  op (.acquiresleep i)
  op (.load i)
  return i

def brelse (i : BufId) : Prog bioIface Unit := do
  op (.releasesleep i)
  op (.unref i)

end Bio

end Xv6
