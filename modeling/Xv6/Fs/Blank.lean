import Xv6.Fs.Alloc

/-!
# Images without data blocks

A disk on which inodes are in use and all of them are empty, and a kernel that runs on it. The
bitmap is a single block, as on the disks that `mkfs` makes.
-/

namespace Xv6

open Lib Kernel

namespace Fs

variable {sb : Superblock} {p : Pid} {D : Nat → Dinode} {a : FsSt}

/-- A block with its first `k` bits set. -/
def marked : Nat → Block
  | 0 => .zero
  | k + 1 => (marked k).setBit k

theorem bit_marked {k bi : Nat} (hbi : bi < BPB) : (marked k).bit bi = decide (bi < k) := by
  induction k with
  | zero => simp [marked, Block.bit]
  | succ k ih =>
    rw [marked, Block.bit_setBit (bit_index hbi), ih, ← Bool.decide_or]
    congr 1
    rw [Nat.lt_succ_iff, Nat.le_iff_lt_or_eq]

/-- Block `k` of the inodes, with the first `m` of them filled in. -/
def inodeBlock (D : Nat → Dinode) (k : Nat) : Nat → Block
  | 0 => .zero
  | m + 1 => (inodeBlock D k m).setDinode m (D (k * IPB + m))

theorem dinode_inodeBlock {k m j : Nat} (hD : ∀ n, (D n).Fits) (hj : j < m) (hm : m ≤ IPB) :
    (inodeBlock D k m).dinode j = D (k * IPB + j) := by
  induction m with
  | zero => omega
  | succ m ih =>
    rw [inodeBlock]
    by_cases hjm : j = m
    · subst hjm
      exact Block.dinode_setDinode_self (by omega) (hD _)
    · rw [Block.dinode_setDinode_of_ne (by omega) hjm]
      exact ih (by omega) (by omega)

/-- The disk with the inodes `D`. -/
def blank (sb : Superblock) (D : Nat → Dinode) (b : Nat) : Block :=
  if b = sb.bmapstart then marked sb.nmeta
  else if sb.inodestart ≤ b ∧ b < sb.bmapstart then inodeBlock D (b - sb.inodestart) IPB
  else .zero

/-- A state in which one process, `p`, is in an operation and nothing is logged yet. -/
def blankView (sb : Superblock) (D : Nat → Dinode) (a : FsSt) (p : Pid) : FsView where
  cur := blank sb D
  disk := blank sb D
  log := { Log.init sb.nlog with outstanding := 1 }
  passed := []
  inOp := {p}
  held _ := none
  aux := a

theorem ref_blank {cur : Nat → Block} (hempty : ∀ n k, (D n).addrs k = 0) :
    ref sb cur D = fun _ => none := by
  funext ⟨n, q⟩
  simp only [ref]
  split
  · cases q with
    | addr k => rw [slotRef, hempty, nz, if_pos rfl]
    | entry j => rw [slotRef, hempty, if_neg fun h => h.2 rfl]
  · rfl

theorem used_blank (hsb : sb.Wf) (hsize : sb.size ≤ BPB) {b : Nat} :
    Used sb (blank sb D) b ↔ b < sb.nmeta := by
  have hmeta := hsb.data
  unfold Used
  constructor
  · rintro ⟨hb, hbit⟩
    have hdiv : b / BPB = 0 := Nat.div_eq_of_lt (by omega)
    have hblock : sb.bblock b = sb.bmapstart := by rw [Superblock.bblock, hdiv, Nat.zero_add]
    rw [hblock, blank, if_pos rfl, Nat.mod_eq_of_lt (by omega), bit_marked (by omega)] at hbit
    exact of_decide_eq_true hbit
  · intro hb
    have hdiv : b / BPB = 0 := Nat.div_eq_of_lt (by omega)
    have hblock : sb.bblock b = sb.bmapstart := by rw [Superblock.bblock, hdiv, Nat.zero_add]
    refine ⟨by omega, ?_⟩
    rw [hblock, blank, if_pos rfl, Nat.mod_eq_of_lt (by omega), bit_marked (by omega)]
    exact decide_eq_true hb

theorem ino_blank (hsb : sb.Wf) (hD : ∀ n, (D n).Fits) {n : Nat} (hn : n < sb.ninodes) :
    ino sb (blank sb D) n = D n := by
  obtain ⟨h₁, h₂⟩ := hsb.iblock hn
  have hIPB : 0 < IPB := by decide
  rw [ino, blank, if_neg (by omega), if_pos ⟨h₁, h₂⟩,
    dinode_inodeBlock hD (Nat.mod_lt _ hIPB) le_rfl]
  have hk : sb.iblock n - sb.inodestart = n / IPB := by
    rw [Superblock.iblock, Nat.add_sub_cancel]
  rw [hk, Nat.mul_comm, Nat.div_add_mod]

theorem image_blank (hsb : sb.Wf) (hsize : sb.size ≤ BPB) (hD : ∀ n, (D n).Fits)
    (hempty : ∀ n k, (D n).addrs k = 0) : Image sb ∅ (blankView sb D a p) D ∅ where
  owns := by
    rw [ref_blank hempty]
    refine ⟨nofun, nofun, nofun, nofun, fun {b} => ?_⟩
    refine (used_blank hsb hsize).trans ⟨.inl, ?_⟩
    rintro (hb | hb | ⟨_, hb⟩)
    · exact hb
    · exact hb.elim
    · cases hb
  inodes n hn _ := (ino_blank hsb hD hn).symm
  fits n _ := hD n
  free n _ _ := hempty n
  clean _ _ := .inl rfl

/-- A kernel that has just started the operation of `p`. -/
def blankKernel (sb : Superblock) (D : Nat → Dinode) (a : FsSt) (p : Pid) : Kernel fsAux :=
  { Kernel.boot sb (blank sb D) (blank sb D) a with
    log := { Log.init sb.nlog with outstanding := 1 }, inOp := {p}, committer := none, up := true }

theorem onDisk_blank (hsb : sb.Wf) : onDisk sb (blank sb D) = [] := by
  have h₁ := hsb.log
  have h₂ := hsb.nlog
  have h₃ := hsb.inodes
  simp only [IPB] at h₃
  have hzero : blank sb D sb.logstart = .zero := by
    rw [blank, if_neg (by omega), if_neg (by omega)]
  rw [onDisk, hzero, headBlocks, Block.u32_zero]
  rfl

theorem recView_blank (hsb : sb.Wf) (b : Nat) :
    recView sb (blankKernel sb D a p).disk b = (blankKernel sb D a p).spec b := by
  have hdisk : onDisk sb (blankKernel sb D a p).disk = [] := onDisk_blank hsb
  rw [recView, hdisk]
  rfl

theorem shows_blank (hsb : sb.Wf) : Shows sb p (blankView sb D a p) (blankKernel sb D a p) := by
  have hdisk : onDisk sb (blankKernel sb D a p).disk = [] := onDisk_blank hsb
  have hinv : Inv sb (blankKernel sb D a p) := by
    refine ⟨.boot _, ⟨rfl, rfl, ⟨nofun, fun h => absurd rfl h.2⟩, fun h => absurd rfl h, nofun,
      ⟨Nat.le_refl 0, fun _ => rfl⟩, .nil sb, ?_, fun _ => hdisk, fun b _ => recView_blank hsb b⟩,
        fun i => ?_, nofun⟩
    · rw [hdisk]
      exact .nil sb
    · exact ⟨fun h => absurd rfl h, (if_neg fun h => nomatch h.2).symm, nofun,
        fun h => absurd rfl h, nofun⟩
  have hnone : ∀ i b, ¬(blankKernel sb D a p).Caches i b := fun i b h => nomatch h.1
  exact ⟨hinv, rfl, fun b _ => contents_of_not_caches fun i => hnone i b, fun _ _ => rfl,
    rfl, rfl, rfl, fun _ => rfl, nofun, nofun, rfl⟩

/-- One empty file, inode 1. -/
def oneFile (n : Nat) : Dinode :=
  if n = 1 then { Dinode.zero with type := 2, nlink := 1 } else .zero

/-- Every entry of the inode table is that file, opened and locked by process 0. -/
def oneFileTable : FsSt where
  inode _ := ⟨ROOTDEV, 1, 1, some 0, true, oneFile 1⟩
  mem _ := ⟨fun _ => false, fun _ => 0⟩

theorem oneFile_fits (n : Nat) : (oneFile n).Fits := by
  unfold oneFile
  split <;>
    exact ⟨by decide, by decide, by decide, by decide, by decide, fun _ => Nat.two_pow_pos 32⟩

theorem oneFile_empty (n : Nat) (k : Fin (NDIRECT + 1)) : (oneFile n).addrs k = 0 := by
  unfold oneFile
  split <;> rfl

theorem oneFile_image : Image .mkfs ∅ (blankView .mkfs oneFile oneFileTable 0) oneFile ∅ :=
  image_blank (by decide) (by decide) oneFile_fits oneFile_empty

end Fs

end Xv6
