import Xv6.Basic
import Xv6.Block

/-!
# The layout of the disk

`struct superblock` of `kernel/fs.h`:
`[ boot block | super block | log | inode blocks | free bit map | data blocks ]`.
-/

namespace Xv6

structure Superblock where
  size : Nat
  nblocks : Nat
  ninodes : Nat
  nlog : Nat
  logstart : Nat
  inodestart : Nat
  bmapstart : Nat
  deriving DecidableEq, Repr

namespace Superblock

/-- The block numbers of the log: its header and its `nlog - 1` data blocks. -/
def InLog (sb : Superblock) (b : Nat) : Prop := sb.logstart ≤ b ∧ b < sb.logstart + sb.nlog

instance (sb : Superblock) (b : Nat) : Decidable (sb.InLog b) := inferInstanceAs (Decidable (_ ∧ _))

/-- The superblock that `mkfs` writes, with `FSSIZE` 1000, `NINODES` 200 and 16 inodes a block. -/
def mkfs : Superblock :=
  let size := 1000
  let ninodes := 200
  let nlog := LOGSIZE
  let ninodeblocks := ninodes / 16 + 1
  let nbitmap := size / (BSIZE * 8) + 1
  { size, ninodes, nlog
    nblocks := size - (2 + nlog + ninodeblocks + nbitmap)
    logstart := 2
    inodestart := 2 + nlog
    bmapstart := 2 + nlog + ninodeblocks }

end Superblock

end Xv6
